import HashTrie.Trie.Cursor

/-!
# Nested iterators

A second form of the walk over a trie. Where a cursor keeps a stack, a nested iterator holds the
iterator of the child that it is in, and is changed in place:

* an iterator over the slots of a node lets go of the iterator of a child as soon as that has no
  entry left, so the one it holds always has one;
* an iterator over the places of an array node lets go of it only when it is asked for more, so the
  one it holds may be used up.

An iterator is moved up to its next entry before the entry is taken.
-/

namespace HashTrie

/-- The kind of a map's root. -/
inductive Shape where
  | empty
  | node
  | array
  deriving DecidableEq

/-- An iterator over a subtree. -/
inductive NestedIter (K V : Type) where
  /-- Over nothing. -/
  | empty
  /-- Over the slots of a bitmap node or the entries of a collision node: the slots behind its
  place, an entry that it has reached, and the iterator of the child that it is in. -/
  | slots (rest : List (Slot K V (Node K V))) (reached : Option (Entry K V))
    (nested : Option (NestedIter K V))
  /-- Over the places of an array node: those behind its place, and the iterator of the child that
  it is in. -/
  | places (rest : List (Option (Node K V))) (nested : Option (NestedIter K V))

namespace Node

variable {K V : Type}

/-- The iterator before the first entry of a node. -/
def iter : Node K V → NestedIter K V
  | .bitmap _ slots => .slots slots none none
  | .array _ children => .places children none
  | .collision _ entries => .slots (entries.map .entry) none none

mutual

/-- The iterator of a node, moved up to the first entry of the node. -/
def iterAt? : Node K V → Option (NestedIter K V)
  | .bitmap _ slots => slotIter? slots
  | .array _ children => placeIter? children
  | .collision _ [] => none
  | .collision _ (e :: rest) => some (.slots (rest.map .entry) (some e) none)

/-- The iterator over a list of slots, moved up to the first entry. -/
def slotIter? : List (Slot K V (Node K V)) → Option (NestedIter K V)
  | [] => none
  | .entry e :: rest => some (.slots rest (some e) none)
  | .child child :: rest =>
    match iterAt? child with
    | some inner => some (.slots rest none (some inner))
    | none => slotIter? rest

/-- The iterator over a list of places, moved up to the first entry. -/
def placeIter? : List (Option (Node K V)) → Option (NestedIter K V)
  | [] => none
  | none :: rest => placeIter? rest
  | some child :: rest =>
    match iterAt? child with
    | some inner => some (.places rest (some inner))
    | none => placeIter? rest

end

end Node

namespace NestedIter

variable {K V : Type}

/-- The iterator before the first entry of a trie. -/
def ofRoot (root : Option (Node K V)) : NestedIter K V :=
  root.elim .empty Node.iter

/-- The kind of the root of the trie that an iterator is over. -/
def shape : NestedIter K V → Shape
  | .empty => .empty
  | .slots .. => .node
  | .places .. => .array

/-- The iterator at an entry, if there is one, or else the one at the end. -/
def orEnd (last : NestedIter K V) : Option (NestedIter K V) → Bool × NestedIter K V
  | some it => (true, it)
  | none => (false, last)

/-- Whether an entry is left, and the iterator moved up to it. -/
def hasNext : NestedIter K V → Bool × NestedIter K V
  | .empty => (false, .empty)
  | .slots rest (some e) nested => (true, .slots rest (some e) nested)
  | .slots rest none (some inner) => (true, .slots rest none (some inner))
  | .slots rest none none => orEnd (.slots [] none none) (Node.slotIter? rest)
  | .places rest none => orEnd (.places [] none) (Node.placeIter? rest)
  | .places rest (some inner) =>
    match inner.hasNext with
    | (true, inner) => (true, .places rest (some inner))
    | (false, _) => orEnd (.places [] none) (Node.placeIter? rest)

/-- The entry that the iterator has been moved up to, and the iterator behind it. The iterator of
the child that it is in has been moved up along with it, so it is not asked once more. -/
def take : NestedIter K V → Except MapError (Entry K V) × NestedIter K V
  | .empty => (.error .exhausted, .empty)
  | .slots rest (some e) nested => (.ok e, .slots rest none nested)
  | .slots rest none none => (.error .exhausted, .slots rest none none)
  | .slots rest none (some inner) =>
    match inner.take with
    | (.error err, inner) => (.error err, .slots rest none (some inner))
    | (.ok e, inner) =>
      let (more, inner) := inner.hasNext
      (.ok e, .slots rest none (if more then some inner else none))
  | .places rest none => (.error .exhausted, .places rest none)
  | .places rest (some inner) =>
    let (result, inner) := inner.take
    (result, .places rest (some inner))

/-- The next entry, and the iterator behind it. -/
def next (it : NestedIter K V) : Except MapError (Entry K V) × NestedIter K V :=
  let (more, it) := it.hasNext
  if more then it.take else (.error .exhausted, it)

/-- The answer to a call, and the iterator after it. -/
def reply (it : NestedIter K V) : Cursor.Call → Cursor.Reply K V × NestedIter K V
  | .hasNext => let (more, it) := it.hasNext; (.more more, it)
  | .next => let (result, it) := it.next; (.entry result, it)

/-- The answers to calls made one after the other. -/
def replies (it : NestedIter K V) : List Cursor.Call → List (Cursor.Reply K V)
  | [] => []
  | call :: calls => let (answer, it) := it.reply call; answer :: it.replies calls

end NestedIter

end HashTrie
