import HashTrie.Ledger
import HashTrie.Trie.Node

/-!
# Removal

Removing what a probe finds leaves the node as it is, empties it, or removes one entry from it. An
array node that is left with `minChildren` children is packed into a bitmap node, and that is
recorded as an event. A collision node that is left with one entry stays a collision node.
-/

namespace HashTrie

/-- What removing an entry makes of a node. -/
inductive Erasure (N : Type) where
  /-- There was nothing to remove: the node stays as it is. -/
  | absent
  /-- The last entry of the node is removed. -/
  | emptied
  /-- An entry is removed, and others are left. -/
  | removed (node : N)

namespace Node

variable {K V : Type}

/-- Remove the slot of an occupied slice. -/
def dropSlot (occupied : Bitmap) (slots : List (Slot K V (Node K V))) (i : Fin 32) :
    Erasure (Node K V) :=
  if occupied = Bitmap.single i then .emptied
  else .removed (.bitmap (occupied.toggle i) (slots.eraseIdx (occupied.rank i)))

/-- The occupied places of an array node, with their slices. -/
def occupiedChildren (children : List (Option (Node K V))) : List (Fin 32 × Node K V) :=
  ((List.finRange 32).zip children).filterMap fun place => place.2.map fun node => (place.1, node)

/-- The bitmap node that has the children of an array node in its slots. -/
def pack (children : List (Option (Node K V))) : Node K V :=
  let places := occupiedChildren children
  .bitmap (Bitmap.ofSlices (places.map (·.1))) (places.map fun place => .child place.2)

/-- Clear an occupied place of an array node with this many children, packing the node when few
enough are left. -/
def dropChild (count : Nat) (children : List (Option (Node K V))) (i : Fin 32) :
    Except Fault (Traced (Erasure (Node K V))) :=
  match count with
  | 0 => .error .countUnderflow
  | rest + 1 =>
    let left := children.set i none
    if rest ≤ minChildren then
      .ok ⟨.removed (pack left), [.packed (occupiedChildren left).length]⟩
    else
      .ok (.silent (.removed (.array rest left)))

/-- Remove the entry that a probe finds among those of one full hash. -/
def eraseColliding (probe : Probe K) (hash : UInt32) (entries : List (Entry K V)) :
    Erasure (Node K V) :=
  match entries.findIdx? fun e => probe.accepts e.key with
  | none => .absent
  | some i =>
    if entries.length = 1 then .emptied else .removed (.collision hash (entries.eraseIdx i))

/-- Remove the entry that a probe finds below a node at this height. -/
def erase (probe : Probe K) : Nat → Node K V → Except Fault (Traced (Erasure (Node K V)))
  | _, .collision hash entries => .ok (.silent (eraseColliding probe hash entries))
  | 0, .bitmap .. => .error .hashExhausted
  | 0, .array .. => .error .hashExhausted
  | h + 1, .bitmap occupied slots =>
    let i := sliceAt (h + 1) probe.hash
    let rank := occupied.rank i
    if occupied.has i then
      match slots[rank]? with
      | none => .error .slotOutOfRange
      | some (.entry e) =>
        .ok (.silent (if probe.accepts e.key then dropSlot occupied slots i else .absent))
      | some (.child node) => do
        let change ← erase probe h node
        .ok (change.map fun
          | .absent => .absent
          | .emptied => dropSlot occupied slots i
          | .removed node => .removed (.bitmap occupied (slots.set rank (.child node))))
    else
      .ok (.silent .absent)
  | h + 1, .array count children => do
    let i := sliceAt (h + 1) probe.hash
    match children[i.val]? with
    | none => .error .slotOutOfRange
    | some none => .ok (.silent .absent)
    | some (some node) => do
      let change ← erase probe h node
      match change.outcome with
      | .absent => .ok ⟨.absent, change.events⟩
      | .removed node => .ok ⟨.removed (.array count (children.set i (some node))), change.events⟩
      | .emptied => do
        let dropped ← dropChild count children i
        .ok ⟨dropped.outcome, change.events ++ dropped.events⟩

end Node

end HashTrie
