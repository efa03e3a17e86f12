import HashTrie.Trie.Node

/-!
# Lookup

The probe's hash leads to one slot or one collision node. There the probe decides: the hash of the
stored key is not looked at again.
-/

namespace HashTrie.Node

variable {K V : Type}

/-- The entry that a probe finds below a node at this height. -/
def find (probe : Probe K) : Nat → Node K V → Except Fault (Option (Entry K V))
  | _, .collision _ entries => .ok (entries.find? fun e => probe.accepts e.key)
  | 0, .bitmap .. => .error .hashExhausted
  | 0, .array .. => .error .hashExhausted
  | h + 1, .bitmap occupied slots =>
    let i := sliceAt (h + 1) probe.hash
    if occupied.has i then
      match slots[occupied.rank i]? with
      | none => .error .slotOutOfRange
      | some (.entry e) => .ok (if probe.accepts e.key then some e else none)
      | some (.child node) => find probe h node
    else
      .ok none
  | h + 1, .array _ children =>
    match children[(sliceAt (h + 1) probe.hash).val]? with
    | none => .error .slotOutOfRange
    | some none => .ok none
    | some (some node) => find probe h node

end HashTrie.Node
