import HashTrie.Proofs.Runs
import HashTrie.Proofs.Updates
import HashTrie.Proofs.Walks
import HashTrie.Value.Scalar

/-!
# What iterators answer

A cursor over a list answers whether an element is left, and hands out the elements from the front
(`Cursor.Call.onList`). Cursors and nested iterators over a trie answer any calls, in any order,
like the cursor over the list of its entries, and an iterator that keeps count knows at any time how
many entries are left (`Protocol`).

For nested iterators this rests on what an iterator is between two calls, `Settled`: what it holds
for a child of a bitmap node is at an entry, and what it holds for a child of an array node is
settled, and may be used up. Moving such an iterator up leads to an entry or to the end
(`Settled.movedUp_hasNext`), and taking the entry leaves it settled (`AtEntry.exists_take_eq`). At an
entry it stays where it is when it is moved up once more (`AtEntry.hasNext_eq`), so it makes no
difference whether the entry of a child is taken or asked for as the next one
(`AtEntry.next_eq_take`).
-/

namespace HashTrie

variable {K V : Type}

/-! ## Cursors over lists -/

/-- The answer of a list to a call, and what is left of it. -/
def Cursor.Call.onList : List (Entry K V) → Cursor.Call → Cursor.Reply K V × List (Entry K V)
  | l, .hasNext => (.more (!l.isEmpty), l)
  | [], .next => (.entry (.error .exhausted), [])
  | e :: rest, .next => (.entry (.ok e), rest)

/-- The answers of a list to calls made one after the other. -/
def Cursor.repliesOfList (l : List (Entry K V)) : List Cursor.Call → List (Cursor.Reply K V)
  | [] => []
  | call :: calls =>
    let (answer, rest) := Call.onList l call
    answer :: repliesOfList rest calls

/-- The answer of a list to a call, with the number of elements that are left, and what is left of
it. -/
def IterCall.onList (l : List (Entry K V)) : IterCall → IterReply K V × List (Entry K V)
  | .next => (.entry l.head?, l.tail)
  | .length => (.length l.length, l)
  | .bounds => (.bounds l.length l.length, l)

/-- The answers of a list to calls made one after the other. -/
def IterCall.repliesOfList (l : List (Entry K V)) : List IterCall → List (IterReply K V)
  | [] => []
  | call :: calls =>
    let (answer, rest) := call.onList l
    answer :: repliesOfList rest calls

/-! ## Cursors -/

namespace Cursor

/-- A cursor has more when some entry is left. -/
theorem fst_hasNext (c : Cursor K V) : c.hasNext.1 = !c.left.isEmpty := by
  unfold hasNext
  split
  · next e hpending => simp [left, hpending]
  · next hpending =>
    have hadvance := stackEntries_eq_of_advance c.stack
    split
    · next hnone =>
      rw [hnone] at hadvance
      simp [left, hpending, hadvance]
    · next e stack hsome =>
      rw [hsome] at hadvance
      simp [left, hpending, hadvance]

/-- One call: a cursor answers like the list of what it has left. -/
theorem exists_reply_eq (c : Cursor K V) (call : Call) :
    ∃ c' : Cursor K V, c.reply call = ((Call.onList c.left call).1, c') ∧
      c'.left = (Call.onList c.left call).2 := by
  cases call with
  | hasNext =>
    refine ⟨c.hasNext.2, ?_, left_hasNext c⟩
    rw [reply, Call.onList, ← fst_hasNext]
  | next =>
    obtain ⟨c', hleft, hnext⟩ := exists_next_eq c
    refine ⟨c', ?_, ?_⟩
    · rw [reply, hnext]
      cases c.left <;> rfl
    · rw [hleft]
      cases c.left <;> rfl

/-- **A cursor answers any calls like the list of what it has left.** -/
theorem replies_eq (c : Cursor K V) (calls : List Call) :
    c.replies calls = repliesOfList c.left calls := by
  induction calls generalizing c with
  | nil => rfl
  | cons call calls ih =>
    obtain ⟨c', hreply, hleft⟩ := exists_reply_eq c call
    simp only [replies, hreply, repliesOfList, ih, hleft]

end Cursor

/-! ## Nested iterators -/

namespace NestedIter

/-- The entries that an iterator has not handed out yet. -/
def left : NestedIter K V → List (Entry K V)
  | .empty => []
  | .slots rest reached none => reached.toList ++ Node.slotEntries rest
  | .slots rest reached (some inner) => reached.toList ++ (inner.left ++ Node.slotEntries rest)
  | .places rest none => Node.childEntries rest
  | .places rest (some inner) => inner.left ++ Node.childEntries rest

/-- Whether an iterator has been moved up to an entry. -/
inductive AtEntry : NestedIter K V → Prop where
  | reached (rest : List (Slot K V (Node K V))) (e : Entry K V) :
    AtEntry (.slots rest (some e) none)
  | slots (rest : List (Slot K V (Node K V))) {inner : NestedIter K V} :
    AtEntry inner → AtEntry (.slots rest none (some inner))
  | places (rest : List (Option (Node K V))) {inner : NestedIter K V} :
    AtEntry inner → AtEntry (.places rest (some inner))

/-- What an iterator is between two calls. -/
inductive Settled : NestedIter K V → Prop where
  | empty : Settled .empty
  | reached (rest : List (Slot K V (Node K V))) (e : Entry K V) :
    Settled (.slots rest (some e) none)
  | slots (rest : List (Slot K V (Node K V))) : Settled (.slots rest none none)
  /-- The iterator of a child of a bitmap node is at an entry. -/
  | inSlot (rest : List (Slot K V (Node K V))) {inner : NestedIter K V} :
    AtEntry inner → Settled (.slots rest none (some inner))
  | places (rest : List (Option (Node K V))) : Settled (.places rest none)
  /-- The iterator of a child of an array node may be used up. -/
  | inPlace (rest : List (Option (Node K V))) {inner : NestedIter K V} :
    Settled inner → Settled (.places rest (some inner))

variable {it : NestedIter K V}

theorem AtEntry.settled (h : it.AtEntry) : it.Settled := by
  induction h with
  | reached rest e => exact .reached rest e
  | slots rest h => exact .inSlot rest h
  | places rest h ih => exact .inPlace rest ih

/-- An iterator at an entry is not moved by the question whether there is one. -/
theorem AtEntry.hasNext_eq (h : it.AtEntry) : it.hasNext = (true, it) := by
  induction h with
  | reached rest e => rfl
  | slots rest h => rfl
  | places rest h ih => rw [hasNext, ih]

/-- At an entry, the next entry is the one that is taken. -/
theorem AtEntry.next_eq_take (h : it.AtEntry) : it.next = it.take := by
  rw [next, h.hasNext_eq]
  rfl

/-- Whether an iterator, if there is one, is at the first entry of a list; without it the list has
no entry. -/
def StartsAt (l : List (Entry K V)) : Option (NestedIter K V) → Prop
  | none => l = []
  | some it => it.AtEntry ∧ it.left = l

end NestedIter

namespace Node

open NestedIter (StartsAt left)

theorem slotEntries_map_entry (es : List (Entry K V)) :
    slotEntries (es.map .entry) = es := by
  induction es with
  | nil => rfl
  | cons e es ih => simp [slotEntries, ih]

mutual

theorem startsAt_iterAt? (node : Node K V) : StartsAt node.toList (iterAt? node) := by
  match node with
  | .bitmap _ slots =>
    rw [iterAt?, toList]
    exact startsAt_slotIter? slots
  | .array _ children =>
    rw [iterAt?, toList]
    exact startsAt_placeIter? children
  | .collision _ [] => rfl
  | .collision _ (e :: rest) =>
    rw [iterAt?, toList]
    exact ⟨.reached _ e, by simp [left, slotEntries_map_entry]⟩

theorem startsAt_slotIter? (rest : List (Slot K V (Node K V))) :
    StartsAt (slotEntries rest) (slotIter? rest) := by
  match rest with
  | [] => simp [slotIter?, slotEntries, StartsAt]
  | .entry e :: rest =>
    rw [slotIter?]
    exact ⟨.reached rest e, by simp [left, slotEntries]⟩
  | .child child :: rest =>
    have hchild := startsAt_iterAt? child
    rw [slotIter?, slotEntries]
    cases hc : iterAt? child with
    | none =>
      rw [hc] at hchild
      rw [show child.toList = [] from hchild]
      exact startsAt_slotIter? rest
    | some inner =>
      rw [hc] at hchild
      exact ⟨.slots rest hchild.1, by simp [left, hchild.2]⟩

theorem startsAt_placeIter? (rest : List (Option (Node K V))) :
    StartsAt (childEntries rest) (placeIter? rest) := by
  match rest with
  | [] => simp [placeIter?, childEntries, StartsAt]
  | none :: rest =>
    rw [placeIter?, childEntries]
    exact startsAt_placeIter? rest
  | some child :: rest =>
    have hchild := startsAt_iterAt? child
    rw [placeIter?, childEntries]
    cases hc : iterAt? child with
    | none =>
      rw [hc] at hchild
      rw [show child.toList = [] from hchild]
      exact startsAt_placeIter? rest
    | some inner =>
      rw [hc] at hchild
      exact ⟨.places rest hchild.1, by simp [left, hchild.2]⟩

end

end Node

namespace NestedIter

variable {it : NestedIter K V}

/-- Whether an iterator has been moved up: to the first entry that is left, or to the end. -/
def MovedUp (l : List (Entry K V)) (p : Bool × NestedIter K V) : Prop :=
  p.2.left = l ∧ (p.1 = true ∧ p.2.AtEntry ∨ p.1 = false ∧ p.2.Settled ∧ l = [])

theorem StartsAt.movedUp_orEnd {l : List (Entry K V)} {start? : Option (NestedIter K V)}
    (h : StartsAt l start?) {last : NestedIter K V} (hlast : last.Settled) (hnil : last.left = []) :
    MovedUp l (orEnd last start?) := by
  cases start? with
  | none => exact ⟨hnil.trans (Eq.symm h), .inr ⟨rfl, hlast, h⟩⟩
  | some it => exact ⟨h.2, .inl ⟨rfl, h.1⟩⟩

/-- **A settled iterator is moved up to the first entry that is left, or to the end.** -/
theorem Settled.movedUp_hasNext (h : it.Settled) : MovedUp it.left it.hasNext := by
  induction h with
  | empty => exact ⟨rfl, .inr ⟨rfl, .empty, rfl⟩⟩
  | reached rest e => exact ⟨rfl, .inl ⟨rfl, .reached rest e⟩⟩
  | slots rest =>
    rw [hasNext, left]
    exact (Node.startsAt_slotIter? rest).movedUp_orEnd (.slots []) rfl
  | inSlot rest h => exact ⟨rfl, .inl ⟨rfl, .slots rest h⟩⟩
  | places rest =>
    rw [hasNext, left]
    exact (Node.startsAt_placeIter? rest).movedUp_orEnd (.places []) rfl
  | @inPlace rest inner h ih =>
    obtain ⟨hleft, hmoved⟩ := ih
    rw [hasNext, left]
    rcases hn : inner.hasNext with ⟨more, inner'⟩
    rw [hn] at hleft hmoved
    rcases hmoved with ⟨rfl, hat⟩ | ⟨rfl, -, hnil⟩
    · exact ⟨by simp only [left, hleft], .inl ⟨rfl, .places rest hat⟩⟩
    · rw [hnil, List.nil_append]
      exact (Node.startsAt_placeIter? rest).movedUp_orEnd (.places []) rfl

/-- **An iterator at an entry hands out the first of the entries that are left.** -/
theorem AtEntry.exists_take_eq (h : it.AtEntry) :
    ∃ e it', it.take = (.ok e, it') ∧ it'.Settled ∧ it.left = e :: it'.left := by
  induction h with
  | reached rest e => exact ⟨e, .slots rest none none, rfl, .slots rest, rfl⟩
  | @slots rest inner h ih =>
    obtain ⟨e, inner', htake, hsettled, hleft⟩ := ih
    obtain ⟨hleft', hmoved⟩ := hsettled.movedUp_hasNext
    -- the child's iterator is moved up at once, and let go of when it is used up
    rcases hn : inner'.hasNext with ⟨more, inner''⟩
    rw [hn] at hleft' hmoved
    rw [take, htake, left, hleft]
    simp only [hn]
    rcases hmoved with ⟨rfl, hat⟩ | ⟨rfl, -, hnil⟩
    · exact ⟨e, _, rfl, .inSlot rest hat, by simp [left, ← hleft']⟩
    · exact ⟨e, _, rfl, .slots rest, by simp [left, hnil]⟩
  | @places rest inner h ih =>
    obtain ⟨e, inner', htake, hsettled, hleft⟩ := ih
    refine ⟨e, .places rest (some inner'), by rw [take, htake], .inPlace rest hsettled, ?_⟩
    rw [left, left, hleft, List.cons_append]

/-- One call: a settled iterator answers like the list of what it has left, and stays settled. -/
theorem Settled.exists_reply_eq (h : it.Settled) (call : Cursor.Call) :
    ∃ it' : NestedIter K V, it.reply call = ((Cursor.Call.onList it.left call).1, it') ∧
      it'.Settled ∧ it'.left = (Cursor.Call.onList it.left call).2 := by
  obtain ⟨hleft, hmoved⟩ := h.movedUp_hasNext
  rcases hn : it.hasNext with ⟨more, it₁⟩
  rw [hn] at hleft hmoved
  rcases hmoved with ⟨rfl, hat⟩ | ⟨rfl, hsettled, hnil⟩
  · obtain ⟨e, it₂, htake, hsettled, hcons⟩ := hat.exists_take_eq
    rw [← hleft, hcons]
    cases call with
    | hasNext => exact ⟨it₁, by simp [reply, hn, Cursor.Call.onList], hat.settled, hcons⟩
    | next => exact ⟨it₂, by simp [reply, next, hn, htake, Cursor.Call.onList], hsettled, rfl⟩
  · rw [hnil] at hleft ⊢
    refine ⟨it₁, ?_, hsettled, ?_⟩
    · cases call <;> simp [reply, next, hn, Cursor.Call.onList]
    · cases call <;> exact hleft

/-- **A settled iterator answers any calls like the list of what it has left.** -/
theorem Settled.replies_eq (h : it.Settled) (calls : List Cursor.Call) :
    it.replies calls = Cursor.repliesOfList it.left calls := by
  induction calls generalizing it with
  | nil => rfl
  | cons call calls ih =>
    obtain ⟨it', hreply, hsettled, hleft⟩ := h.exists_reply_eq call
    simp only [replies, hreply, Cursor.repliesOfList, ih hsettled, hleft]

theorem settled_ofRoot (root : Option (Node K V)) : (ofRoot root).Settled := by
  rcases root with _ | _ | _ | _
  · exact .empty
  · exact .slots _
  · exact .places _
  · exact .slots _

theorem left_ofRoot (root : Option (Node K V)) :
    (ofRoot root).left = (root.map Node.toList).getD [] := by
  rcases root with _ | node
  · rfl
  · cases node <;> simp [ofRoot, Node.iter, left, Node.toList, Node.slotEntries_map_entry]

end NestedIter

/-! ## Iterators that keep count -/

namespace Iter

variable {it : Iter K V}

/-- What an iterator is between two calls: it counts what its nested iterator has left. -/
structure Counts (it : Iter K V) : Prop where
  settled : it.nested.Settled
  remaining_eq : it.remaining = it.nested.left.length

/-- The next entry is the first of those that are left, and is taken off the count. -/
theorem Counts.exists_next_eq (h : it.Counts) :
    ∃ it' : Iter K V, it.next = (it.nested.left.head?, it') ∧ it'.Counts ∧
      it'.nested.left = it.nested.left.tail := by
  obtain ⟨hsettled, hcount⟩ := h
  obtain ⟨hleft, hmoved⟩ := hsettled.movedUp_hasNext
  rcases hn : it.nested.hasNext with ⟨more, nested⟩
  rw [hn] at hleft hmoved
  rcases hmoved with ⟨rfl, hat⟩ | ⟨rfl, hend, hnil⟩
  · obtain ⟨e, nested', htake, hsettled', hcons⟩ := hat.exists_take_eq
    have hall : it.nested.left = e :: nested'.left := hleft.symm.trans hcons
    refine ⟨⟨nested', it.remaining - 1⟩, ?_, ⟨hsettled', ?_⟩, ?_⟩
    · simp [next, hn, hat.next_eq_take, htake, hall]
    · rw [hcount, hall]
      rfl
    · rw [hall]
      rfl
  · refine ⟨⟨nested, it.remaining⟩, ?_, ⟨hend, ?_⟩, ?_⟩
    · simp [next, hn, hnil]
    · rw [hcount, hleft]
    · rw [hleft, hnil]
      rfl

/-- **An iterator answers any calls like the list of what it has left.** -/
theorem Counts.replies_eq (h : it.Counts) (calls : List IterCall) :
    it.replies calls = IterCall.repliesOfList it.nested.left calls := by
  induction calls generalizing it with
  | nil => rfl
  | cons call calls ih =>
    cases call with
    | next =>
      obtain ⟨it', hnext, hcounts, hleft⟩ := h.exists_next_eq
      simp only [replies, hnext, IterCall.repliesOfList, IterCall.onList, ih hcounts, hleft]
    | length =>
      rw [replies, ih h, h.remaining_eq]
      rfl
    | bounds =>
      rw [replies, ih h, h.remaining_eq]
      rfl

end Iter

/-! ## Maps -/

namespace Map

theorem settled_nestedIter (m : Map K V) : m.nestedIter.Settled := NestedIter.settled_ofRoot m.node?

theorem left_nestedIter (m : Map K V) : m.nestedIter.left = m.toList := by
  rw [nestedIter, NestedIter.left_ofRoot, toList_eq]

theorem left_iter (m : Map K V) : m.iter.nested.left = m.toList := m.left_nestedIter

theorem WellFormed.counts_iter [HashEquiv K] {m : Map K V} (hw : m.WellFormed) :
    m.iter.Counts where
  settled := m.settled_nestedIter
  remaining_eq := by
    rw [m.left_iter]
    exact hw.count_eq

end Map

/-- Whether the iterators over a map answer any calls like its list of entries. -/
structure Protocol (m : Map K V) : Prop where
  /-- The list has the entries of the trie, depth first and in the order of the slices. -/
  toList_eq : m.toList = m.node?.elim [] Node.toList
  cursor : ∀ calls, m.cursor.replies calls = Cursor.repliesOfList m.toList calls
  nestedIter : ∀ calls, m.nestedIter.replies calls = Cursor.repliesOfList m.toList calls
  iter : ∀ calls, m.iter.replies calls = IterCall.repliesOfList m.toList calls

theorem protocol_of_wellFormed [HashEquiv K] {m : Map K V} (hw : m.WellFormed) : Protocol m where
  toList_eq := by
    rw [Map.toList_eq]
    cases m.node? <;> rfl
  cursor calls := by rw [Cursor.replies_eq, Map.left_cursor]
  nestedIter calls := by rw [m.settled_nestedIter.replies_eq, m.left_nestedIter]
  iter calls := by rw [hw.counts_iter.replies_eq, m.left_iter]

/-- **The iterators over a map that can be made answer any calls like its list of entries.** Asking
whether more is left takes nothing, the next entry is handed out whether or not that was asked
before, and behind the last one there is none, however often it is asked for. -/
theorem protocol_of_reachable [HashEquiv K] [BEq V] [HashEquiv V] {m : Map K V}
    (hm : m.Reachable) : Protocol m :=
  protocol_of_wellFormed hm.wellFormed

/-- A map with two keys of one hash in a node of their own, and a third key. -/
def sharedHashMap : Map Scalar Scalar :=
  Map.ofEdits [.insert ⟨.pinned 1 5 0, .nil⟩, .insert ⟨.pinned 2 5 0, .nil⟩,
    .insert ⟨.pinned 3 6 0, .nil⟩]

/-- The entries are handed out once each, with and without asking for more. -/
theorem protocol_sharedHashMap :
    sharedHashMap.Reachable ∧ Protocol sharedHashMap ∧
      sharedHashMap.nestedIter.replies [.hasNext, .hasNext, .next, .next, .next, .hasNext, .next] =
        [.more true, .more true, .entry (.ok ⟨.pinned 1 5 0, .nil⟩),
          .entry (.ok ⟨.pinned 2 5 0, .nil⟩), .entry (.ok ⟨.pinned 3 6 0, .nil⟩), .more false,
          .entry (.error .exhausted)] ∧
      sharedHashMap.iter.replies [.length, .next, .next, .bounds] =
        [.length 3, .entry (some ⟨.pinned 1 5 0, .nil⟩), .entry (some ⟨.pinned 2 5 0, .nil⟩),
          .bounds 1 1] := by
  have hm : sharedHashMap.Reachable := Map.reachable_ofEdits _
  have hprotocol := protocol_of_reachable hm
  have hlist : sharedHashMap.toList =
      [⟨.pinned 1 5 0, .nil⟩, ⟨.pinned 2 5 0, .nil⟩, ⟨.pinned 3 6 0, .nil⟩] := by
    rw [Map.toList_eq]
    rfl
  refine ⟨hm, hprotocol, ?_, ?_⟩
  · rw [hprotocol.nestedIter, hlist]
    rfl
  · rw [hprotocol.iter, hlist]
    rfl

end HashTrie
