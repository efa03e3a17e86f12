import HashTrie.Map.Basic
import HashTrie.Trie.NestedIter
import HashTrie.Trie.Seq

/-!
# Walks over a map

Ways to walk over the entries of a map: a cursor, which keeps a stack, a nested iterator, which is
the other form of it, an iterator over the nested one that also knows how many entries are left, and
a persistent sequence. All go through the entries in one order.
-/

namespace HashTrie

/-- What an iterator can be asked. -/
inductive IterCall where
  | next
  | length
  | bounds
  deriving DecidableEq

/-- What an iterator answers. -/
inductive IterReply (K V : Type) where
  | entry (e : Option (Entry K V))
  | length (n : Nat)
  | bounds (lower upper : Nat)

/-- A nested iterator with the number of entries that are left according to the map's count. -/
structure Iter (K V : Type) where
  nested : NestedIter K V
  remaining : Nat

/-- The next entry, and the iterator behind it. -/
def Iter.next {K V : Type} (it : Iter K V) : Option (Entry K V) × Iter K V :=
  let (more, nested) := it.nested.hasNext
  if more then
    match nested.next with
    | (.ok e, nested) => (some e, ⟨nested, it.remaining - 1⟩)
    | (.error _, nested) => (none, ⟨nested, it.remaining⟩)
  else
    (none, ⟨nested, it.remaining⟩)

/-- The answers of an iterator to calls made one after the other. -/
def Iter.replies {K V : Type} (it : Iter K V) : List IterCall → List (IterReply K V)
  | [] => []
  | .next :: calls => let (e, it) := it.next; .entry e :: it.replies calls
  | .length :: calls => .length it.remaining :: it.replies calls
  | .bounds :: calls => .bounds it.remaining it.remaining :: it.replies calls

/-- A walk over a map's sequence with the number of entries that are left. -/
structure SeqIter (K V : Type) where
  walk : Option (Seq.Walk K V)
  remaining : Nat

/-- The next entry, and the iterator behind it. -/
def SeqIter.next {K V : Type} (it : SeqIter K V) : Option (Entry K V) × SeqIter K V :=
  match it.walk with
  | none => (none, it)
  | some walk =>
    match walk.next with
    | (none, walk) => (none, ⟨some walk, it.remaining⟩)
    | (some e, walk) => (some e, ⟨some walk, it.remaining - 1⟩)

/-- The answers of an iterator to calls made one after the other. -/
def SeqIter.replies {K V : Type} (it : SeqIter K V) : List IterCall → List (IterReply K V)
  | [] => []
  | .next :: calls => let (e, it) := it.next; .entry e :: it.replies calls
  | .length :: calls => .length it.remaining :: it.replies calls
  | .bounds :: calls => .bounds it.remaining it.remaining :: it.replies calls

namespace Map

variable {K V : Type}

/-- The cursor before the first entry. -/
def cursor (m : Map K V) : Cursor K V := Cursor.ofRoot m.node?

/-- The nested iterator before the first entry. -/
def nestedIter (m : Map K V) : NestedIter K V := NestedIter.ofRoot m.node?

/-- The kind of a map's root. -/
def shape (m : Map K V) : Shape :=
  match m.node? with
  | none => .empty
  | some node => if node.isArray then .array else .node

/-- The kind of the root is that of the nested iterator. -/
theorem shape_nestedIter (m : Map K V) : m.nestedIter.shape = m.shape := by
  rw [nestedIter, NestedIter.ofRoot, shape]
  rcases m.node? with _ | _ | _ | _ <;> rfl

/-- The iterator before the first entry. -/
def iter (m : Map K V) : Iter K V := ⟨m.nestedIter, m.count⟩

/-- The entries, in the order of the walks. -/
def toList (m : Map K V) : List (Entry K V) := Cursor.drain m.cursor.stack

/-- The entries of a map are those of its trie. -/
theorem toList_eq (m : Map K V) : m.toList = (m.node?.map Node.toList).getD [] := by
  rw [toList, Cursor.drain_eq_stackEntries, cursor, Cursor.ofRoot]
  cases m.node? with
  | none => rfl
  | some node => simp [Cursor.stackEntries_frame, Cursor.stackEntries]

@[simp] theorem toList_empty : (empty : Map K V).toList = [] := by
  simp [toList_eq, node?, empty]

@[simp] theorem toList_cleared (m : Map K V) : m.cleared.toList = [] := by
  simp [toList_eq, node?, cleared, empty]

/-- The keys, in the order of the walks. -/
def keys (m : Map K V) : List K := m.toList.map Entry.key

/-- The values, in the order of the walks. -/
def values (m : Map K V) : List V := m.toList.map Entry.value

/-- The sequence at the first entry. -/
def seq? (m : Map K V) : Option (Seq K V) := m.node?.bind Node.seq?

/-- The iterator over the map's sequence. -/
def seqIter (m : Map K V) : SeqIter K V :=
  ⟨m.seq?.map fun s => ⟨some s⟩, m.count⟩

/-- Fold the entries, from the first one on. -/
def fold {A : Type} (f : A → Entry K V → A) (start : A) (m : Map K V) : A :=
  m.toList.foldl f start

/-- Combine the entries of the map's sequence pairwise, starting with the first one. -/
def reduce? (f : Entry K V → Entry K V → Entry K V) (m : Map K V) : Option (Entry K V) :=
  match m.seq?.map Seq.toList with
  | some (first :: rest) => some (rest.foldl f first)
  | _ => none

end Map

end HashTrie
