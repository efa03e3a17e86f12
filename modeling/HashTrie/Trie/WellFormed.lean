import HashTrie.Trie.Node

/-!
# Well-formed tries

What the nodes of a trie owe to each other, whatever the keys' equivalence is:

* a bitmap node has 1 to 16 slots, as many as its bitmap has set bits, and stands at heights 7 to 1;
* an array node has 32 places, knows how many of them hold a subtree, has 9 to 32 of these, and
  stands at heights 7 to 2;
* a collision node has an entry, all its keys have its hash, and it stands below the root;
* what is stored at a slice has keys with that slice.
-/

namespace HashTrie

namespace Node

variable {K V : Type}

/-- Whether all keys below a node have this slice at this height. -/
def Routed [HashEquiv K] (height : Nat) (i : Fin 32) (es : List (Entry K V)) : Prop :=
  ∀ e ∈ es, sliceAt height (HashEquiv.hash e.key) = i

/-- Whether a node is well formed at this height. -/
def WellFormed [HashEquiv K] : Nat → Node K V → Prop
  | h, .collision hash entries =>
    h < rootHeight ∧ entries ≠ [] ∧ ∀ e ∈ entries, HashEquiv.hash e.key = hash
  | 0, .bitmap .. => False
  | 0, .array .. => False
  | h + 1, .bitmap occupied slots =>
    h + 1 ≤ rootHeight ∧ slots ≠ [] ∧ slots.length ≤ maxSlots ∧
      slots.length = occupied.popCount ∧
      ∀ i, occupied.has i →
        match slots[occupied.rank i]? with
        | none => False
        | some (.entry e) => sliceAt (h + 1) (HashEquiv.hash e.key) = i
        | some (.child node) => WellFormed h node ∧ Routed (h + 1) i node.toList
  | h + 1, .array count children =>
    h + 1 ≤ rootHeight ∧ 1 ≤ h ∧ children.length = 32 ∧ minChildren < count ∧
      count = (children.filter Option.isSome).length ∧
      ∀ i : Fin 32,
        match children[i.val]? with
        | none => False
        | some none => True
        | some (some node) => WellFormed h node ∧ Routed (h + 1) i node.toList

theorem wellFormed_collision [HashEquiv K] {h : Nat} {hash : UInt32} {entries : List (Entry K V)} :
    (collision hash entries).WellFormed h ↔
      h < rootHeight ∧ entries ≠ [] ∧ ∀ e ∈ entries, HashEquiv.hash e.key = hash := by
  cases h <;> rw [WellFormed]

mutual

/-- The number of array nodes in a trie. -/
def arrayNodes : Node K V → Nat
  | .bitmap _ slots => slotArrayNodes slots
  | .array _ children => childArrayNodes children + 1
  | .collision .. => 0

/-- The number of array nodes below a list of slots. -/
def slotArrayNodes : List (Slot K V (Node K V)) → Nat
  | [] => 0
  | .entry _ :: rest => slotArrayNodes rest
  | .child node :: rest => node.arrayNodes + slotArrayNodes rest

/-- The number of array nodes below a list of children. -/
def childArrayNodes : List (Option (Node K V)) → Nat
  | [] => 0
  | none :: rest => childArrayNodes rest
  | some node :: rest => node.arrayNodes + childArrayNodes rest

end

end Node

end HashTrie
