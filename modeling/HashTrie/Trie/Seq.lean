import HashTrie.Trie.Node

/-!
# Persistent sequences

A sequence stands at an entry of a trie: at an index of a node, or inside a child of a node, with
the index at which to go on behind that child. Going on makes a new sequence and leaves the old one
as it is. A sequence always has a current entry; behind the last one there is no sequence.

`remaining` is the list of entries from the current one on. A step takes off its first element
(`remaining_eq_first_cons`), so walking a sequence to its end is a total function.
-/

namespace HashTrie

/-- A place in a trie. -/
inductive Seq (K V : Type) where
  /-- At the entry at this index of a node. -/
  | entry (node : Node K V) (index : Nat)
  /-- Inside a child of a node, with the index behind that child. -/
  | inside (node : Node K V) (next : Nat) (inner : Seq K V)

namespace Node

variable {K V : Type}

mutual

/-- The sequence at the first entry of a node. -/
def seq? : Node K V → Option (Seq K V)
  | .bitmap occupied slots => slotSeq? (.bitmap occupied slots) 0 slots
  | .array count children => childSeq? (.array count children) 0 children
  | .collision hash entries =>
    if entries.isEmpty then none else some (.entry (.collision hash entries) 0)

/-- The sequence at the first entry of the slots of a node from an index on. -/
def slotSeq? (node : Node K V) (index : Nat) : List (Slot K V (Node K V)) → Option (Seq K V)
  | [] => none
  | .entry _ :: _ => some (.entry node index)
  | .child child :: rest =>
    match seq? child with
    | some inner => some (.inside node (index + 1) inner)
    | none => slotSeq? node (index + 1) rest

/-- The sequence at the first entry of the children of a node from an index on. -/
def childSeq? (node : Node K V) (index : Nat) : List (Option (Node K V)) → Option (Seq K V)
  | [] => none
  | none :: rest => childSeq? node (index + 1) rest
  | some child :: rest =>
    match seq? child with
    | some inner => some (.inside node (index + 1) inner)
    | none => childSeq? node (index + 1) rest

end

/-- The sequence at the first entry of a node from an index on. -/
def seqFrom? (node : Node K V) (index : Nat) : Option (Seq K V) :=
  match node with
  | .bitmap _ slots => slotSeq? node index (slots.drop index)
  | .array _ children => childSeq? node index (children.drop index)
  | .collision _ entries => if index < entries.length then some (.entry node index) else none

/-- The entry at an index of a bitmap or collision node. -/
def entryAt? (node : Node K V) (index : Nat) : Option (Entry K V) :=
  match node with
  | .bitmap _ slots =>
    match slots[index]? with
    | some (.entry e) => some e
    | _ => none
  | .array .. => none
  | .collision _ entries => entries[index]?

/-- The entries of a node from an index on. -/
def entriesFrom (node : Node K V) (index : Nat) : List (Entry K V) :=
  match node with
  | .bitmap _ slots => slotEntries (slots.drop index)
  | .array _ children => childEntries (children.drop index)
  | .collision _ entries => entries.drop index

end Node

namespace Seq

variable {K V : Type}

/-- Whether the outermost node of the sequence is an array node. -/
def isArray : Seq K V → Bool
  | .entry node _ => node.isArray
  | .inside node _ _ => node.isArray

/-- The current entry. -/
def first : Seq K V → Except Fault (Entry K V)
  | .entry node index =>
    match node.entryAt? index with
    | some e => .ok e
    | none => .error .offEntry
  | .inside _ _ inner => inner.first

/-- The sequence behind the current entry, unless that is the last one. -/
def next? : Seq K V → Option (Seq K V)
  | .entry node index => node.seqFrom? (index + 1)
  | .inside node index inner =>
    match inner.next? with
    | some inner => some (.inside node index inner)
    | none => node.seqFrom? index

/-- The entries from the current one on. -/
def remaining : Seq K V → List (Entry K V)
  | .entry node index => node.entriesFrom index
  | .inside node index inner => inner.remaining ++ node.entriesFrom index

end Seq

namespace Node

variable {K V : Type}

mutual

/-- The sequence of a node holds the entries of the node. -/
theorem remaining_seq? (node : Node K V) :
    ((seq? node).map Seq.remaining).getD [] = node.toList := by
  match node with
  | .bitmap occupied slots =>
    rw [seq?, remaining_slotSeq? _ _ slots (by intro j; simp [entriesFrom]), toList]
  | .array count children =>
    rw [seq?, remaining_childSeq? _ _ children (by intro j; simp [entriesFrom]), toList]
  | .collision hash entries =>
    cases entries <;> simp [seq?, Seq.remaining, entriesFrom, toList]

/-- The sequence from a slot on holds the entries from that slot on. -/
theorem remaining_slotSeq? (node : Node K V) (index : Nat) (rest : List (Slot K V (Node K V)))
    (h : ∀ j, node.entriesFrom (index + j) = slotEntries (rest.drop j)) :
    ((slotSeq? node index rest).map Seq.remaining).getD [] = slotEntries rest := by
  match rest with
  | [] => simp [slotSeq?, slotEntries]
  | .entry e :: rest =>
    have := h 0
    simpa [slotSeq?, Seq.remaining] using this
  | .child child :: rest =>
    have ih := remaining_seq? child
    have tail := remaining_slotSeq? node (index + 1) rest (fun j => by
      have := h (j + 1)
      rwa [show index + (j + 1) = index + 1 + j by omega, List.drop_succ_cons] at this)
    have behind : node.entriesFrom (index + 1) = slotEntries rest := by simpa using h 1
    rw [slotSeq?, slotEntries]
    cases hc : seq? child with
    | none => simp_all
    | some inner => simp_all [Seq.remaining]

/-- The sequence from a child on holds the entries from that child on. -/
theorem remaining_childSeq? (node : Node K V) (index : Nat) (rest : List (Option (Node K V)))
    (h : ∀ j, node.entriesFrom (index + j) = childEntries (rest.drop j)) :
    ((childSeq? node index rest).map Seq.remaining).getD [] = childEntries rest := by
  match rest with
  | [] => simp [childSeq?, childEntries]
  | none :: rest =>
    rw [childSeq?, childEntries]
    exact remaining_childSeq? node (index + 1) rest (fun j => by
      have := h (j + 1)
      rwa [show index + (j + 1) = index + 1 + j by omega, List.drop_succ_cons] at this)
  | some child :: rest =>
    have ih := remaining_seq? child
    have tail := remaining_childSeq? node (index + 1) rest (fun j => by
      have := h (j + 1)
      rwa [show index + (j + 1) = index + 1 + j by omega, List.drop_succ_cons] at this)
    have behind : node.entriesFrom (index + 1) = childEntries rest := by simpa using h 1
    rw [childSeq?, childEntries]
    cases hc : seq? child with
    | none => simp_all
    | some inner => simp_all [Seq.remaining]

end

/-- The sequence from an index of a node on holds the entries from that index on. -/
theorem remaining_seqFrom? (node : Node K V) (index : Nat) :
    ((node.seqFrom? index).map Seq.remaining).getD [] = node.entriesFrom index := by
  cases node with
  | bitmap occupied slots =>
    exact remaining_slotSeq? _ _ _ fun j => by simp [entriesFrom]
  | array count children =>
    exact remaining_childSeq? _ _ _ fun j => by simp [entriesFrom]
  | collision hash entries =>
    by_cases h : index < entries.length
    · simp [seqFrom?, h, Seq.remaining]
    · simp [seqFrom?, h, entriesFrom, List.drop_eq_nil_of_le (Nat.le_of_not_lt h)]

/-- The entry at an index is the first of the entries from that index on. -/
theorem entriesFrom_eq_cons {node : Node K V} {index : Nat} {e : Entry K V}
    (h : node.entryAt? index = some e) :
    node.entriesFrom index = e :: node.entriesFrom (index + 1) := by
  cases node with
  | bitmap occupied slots =>
    simp only [entryAt?] at h
    split at h
    · next e' hs =>
      obtain ⟨hi, hs⟩ := List.getElem?_eq_some_iff.mp hs
      cases h
      rw [entriesFrom, List.drop_eq_getElem_cons hi, hs, slotEntries, entriesFrom]
    · cases h
  | array => cases h
  | collision hash entries =>
    obtain ⟨hi, hs⟩ := List.getElem?_eq_some_iff.mp h
    rw [entriesFrom, List.drop_eq_getElem_cons hi, hs, entriesFrom]

end Node

namespace Seq

variable {K V : Type}

/-- A step takes the current entry off the remaining ones. -/
theorem remaining_eq_first_cons {s : Seq K V} {e : Entry K V} (h : s.first = .ok e) :
    s.remaining = e :: (s.next?.map remaining).getD [] := by
  induction s with
  | entry node index =>
    simp only [first] at h
    split at h
    · next e' he =>
      cases h
      rw [remaining, next?, Node.remaining_seqFrom?, Node.entriesFrom_eq_cons he]
    · cases h
  | inside node index inner ih =>
    have ih := ih h
    rw [remaining, next?, ih]
    cases hn : inner.next? with
    | none => simp [Node.remaining_seqFrom?]
    | some t => simp [remaining]

/-- The entries from the current one on, found by stepping. The walk ends where a sequence has no
current entry. -/
def toList (s : Seq K V) : List (Entry K V) :=
  match _h : s.first with
  | .error _ => []
  | .ok e =>
    match _h' : s.next? with
    | none => [e]
    | some t => e :: t.toList
termination_by s.remaining.length
decreasing_by simp [remaining_eq_first_cons _h, _h']

/-- The number of entries from the current one on, found by stepping. -/
def count (s : Seq K V) : Nat := s.toList.length

/-- A walk over a sequence: the sequence at the next entry, if there is one. -/
structure Walk (K V : Type) where
  current : Option (Seq K V)

/-- The next entry of a walk, and the walk behind it. -/
def Walk.next (w : Walk K V) : Option (Entry K V) × Walk K V :=
  match w.current with
  | none => (none, ⟨none⟩)
  | some s =>
    match s.first with
    | .error _ => (none, ⟨none⟩)
    | .ok e => (some e, ⟨s.next?⟩)

end Seq

end HashTrie
