import HashTrie.Proofs.Protocol

/-!
# Sequences and iterators agree

A sequence finds its way by an index into each node, an iterator by what is left of it, and both go
through the same entries in the same order. `WalksAgree` says so of every sequence over a map: after
`i` steps it stands at the `i`-th of the entries that an iterator hands out, and holds these from
there on. So the owning iterator, which steps through the map's sequence, and the folds do the same.

All this comes down to `Seq.remaining`, which each step makes shorter by the current entry.
-/

namespace HashTrie

variable {K V : Type}

namespace Seq

variable {s : Seq K V}

/-- The entries found by stepping are the remaining ones. -/
theorem toList_eq_remaining (hs : ∃ e, s.first = .ok e) : s.toList = s.remaining := by
  fun_induction toList s with
  | case1 s err herr =>
    obtain ⟨e, he⟩ := hs
    rw [herr] at he
    cases he
  | case2 s e he hnone => rw [remaining_eq_first_cons he, hnone]; rfl
  | case3 s e he t hnext ih =>
    rw [remaining_eq_first_cons he, hnext, ih (exists_first_eq_next? hnext)]
    rfl

/-- Whether a walk hands out these entries and then nothing. -/
inductive Walk.Yields : Walk K V → List (Entry K V) → Prop where
  | done {w w' : Walk K V} : w.next = (none, w') → Yields w []
  | step {w w' : Walk K V} {e : Entry K V} {es : List (Entry K V)} :
    w.next = (some e, w') → Yields w' es → Yields w (e :: es)

theorem next_walk {e : Entry K V} (he : s.first = .ok e) :
    (⟨some s⟩ : Walk K V).next = (some e, ⟨s.next?⟩) := by
  simp only [Walk.next, he]

/-- A walk hands out the entries found by stepping from where it starts. -/
theorem yields_toList (hs : ∃ e, s.first = .ok e) : Walk.Yields ⟨some s⟩ s.toList := by
  fun_induction toList s with
  | case1 s err herr =>
    obtain ⟨e, he⟩ := hs
    rw [herr] at he
    cases he
  | case2 s e he hnone => exact .step (next_walk he) (hnone ▸ .done rfl)
  | case3 s e he t hnext ih =>
    exact .step (next_walk he) (hnext ▸ ih (exists_first_eq_next? hnext))

/-- A sequence ends at its last entry. -/
theorem next?_eq_none_iff (hs : ∃ e, s.first = .ok e) :
    s.next? = none ↔ s.remaining.length = 1 := by
  obtain ⟨e, he⟩ := hs
  rw [remaining_eq_first_cons he]
  cases hn : s.next? with
  | none => simp
  | some t =>
    obtain ⟨e', he'⟩ := exists_first_eq_next? hn
    simp [remaining_eq_first_cons he']

end Seq

/-! ## Iterators over sequences -/

namespace SeqIter

variable {it : SeqIter K V}

/-- The sequence at which an iterator stands. -/
def seq? (it : SeqIter K V) : Option (Seq K V) := it.walk.bind Seq.Walk.current

/-- The entries that an iterator has not handed out yet. -/
def left (it : SeqIter K V) : List (Entry K V) := (it.seq?.map Seq.remaining).getD []

/-- Whether an iterator stands at an entry or at the end, and counts what is left. -/
structure Counts (it : SeqIter K V) : Prop where
  first : ∀ s, it.seq? = some s → ∃ e, s.first = .ok e
  remaining_eq : it.remaining = it.left.length

/-- The next entry is the first of those that are left, and is taken off the count. -/
theorem Counts.exists_next_eq (h : it.Counts) :
    ∃ it' : SeqIter K V, it.next = (it.left.head?, it') ∧ it'.Counts ∧ it'.left = it.left.tail := by
  obtain ⟨walk, n⟩ := it
  rcases walk with _ | ⟨_ | s⟩
  · exact ⟨_, rfl, h, rfl⟩
  · exact ⟨_, rfl, ⟨h.first, h.remaining_eq⟩, rfl⟩
  · obtain ⟨e, he⟩ := h.first s rfl
    have hleft : (⟨some ⟨some s⟩, n⟩ : SeqIter K V).left =
        e :: (⟨some ⟨s.next?⟩, n - 1⟩ : SeqIter K V).left := Seq.remaining_eq_first_cons he
    have hcount : n = (⟨some ⟨s.next?⟩, n - 1⟩ : SeqIter K V).left.length + 1 := by
      have := h.remaining_eq
      rwa [hleft] at this
    rw [hleft]
    refine ⟨⟨some ⟨s.next?⟩, n - 1⟩, ?_, ⟨fun t ht => Seq.exists_first_eq_next? ht, ?_⟩, rfl⟩
    · simp only [next, Seq.next_walk he, List.head?_cons]
    · exact Nat.sub_eq_of_eq_add hcount

/-- **An iterator over a sequence answers any calls like the list of what it has left.** -/
theorem Counts.replies_eq (h : it.Counts) (calls : List IterCall) :
    it.replies calls = IterCall.repliesOfList it.left calls := by
  induction calls generalizing it with
  | nil => rfl
  | cons call calls ih =>
    cases call with
    | next =>
      obtain ⟨it', hnext, hcounts, hleft⟩ := h.exists_next_eq
      simp only [replies, hnext, IterCall.repliesOfList, IterCall.onList, ih hcounts, hleft]
    | length =>
      rw [replies, ih h, h.remaining_eq]
      rfl
    | bounds =>
      rw [replies, ih h, h.remaining_eq]
      rfl

end SeqIter

/-! ## Maps -/

/-- Whether a sequence stands at an entry of a list, and goes on to the end of the list. -/
structure Seq.StandsAt (s : Seq K V) (l : List (Entry K V)) (i : Nat) (hi : i < l.length) :
    Prop where
  first_eq : s.first = .ok l[i]
  count_eq : s.count = l.length - i
  toList_eq : s.toList = l.drop i
  yields : Walk.Yields ⟨some s⟩ (l.drop i)
  next?_eq_none_iff : s.next? = none ↔ i = l.length - 1

/-- Whether iterators, sequences and folds go through the entries of a map in one order. -/
structure WalksAgree (m : Map K V) : Prop where
  /-- Calls for the next entry give the list, and then tell that it is used up. -/
  nestedIter : m.nestedIter.replies (List.replicate (m.toList.length + 1) .next) =
    m.toList.map (fun e => .entry (.ok e)) ++ [.entry (.error .exhausted)]
  iter : m.iter.replies (List.replicate (m.toList.length + 1) .next) =
    m.toList.map (fun e => .entry (some e)) ++ [.entry none]
  seq?_eq_none_iff : m.seq? = none ↔ m.toList = []
  seqAfter? : ∀ i (hi : i < m.toList.length),
    ∃ s, m.seqAfter? i = some s ∧ s.StandsAt m.toList i hi
  seqIter : ∀ calls, m.seqIter.replies calls = IterCall.repliesOfList m.toList calls
  reduce? : ∀ f, m.reduce? f = match m.toList with
    | [] => none
    | e :: es => some (es.foldl f e)
  fold : ∀ (A : Type) (f : A → Entry K V → A) (start : A), m.fold f start = m.toList.foldl f start

theorem Cursor.repliesOfList_replicate (l : List (Entry K V)) :
    repliesOfList l (List.replicate (l.length + 1) .next) =
      l.map (fun e => .entry (.ok e)) ++ [.entry (.error .exhausted)] := by
  induction l with
  | nil => rfl
  | cons e l ih =>
    rw [List.length_cons, List.replicate_succ, repliesOfList, List.map_cons, List.cons_append, ← ih]
    rfl

theorem IterCall.repliesOfList_replicate (l : List (Entry K V)) :
    repliesOfList l (List.replicate (l.length + 1) .next) =
      l.map (fun e => .entry (some e)) ++ [.entry none] := by
  induction l with
  | nil => rfl
  | cons e l ih =>
    rw [List.length_cons, List.replicate_succ, repliesOfList, List.map_cons, List.cons_append, ← ih]
    rfl

namespace Map

variable {m : Map K V}

theorem exists_seqAfter?_standsAt {i : Nat} (hi : i < m.toList.length) :
    ∃ s, m.seqAfter? i = some s ∧ s.StandsAt m.toList i hi := by
  have hsome := isSome_seqAfter? m i
  rw [decide_eq_true hi] at hsome
  obtain ⟨s, hs⟩ := Option.isSome_iff_exists.mp hsome
  have hfirst := exists_first_eq_seqAfter? hs
  have hremaining := remaining_of_seqAfter?_eq_some hs
  have htoList : s.toList = m.toList.drop i := by rw [Seq.toList_eq_remaining hfirst, hremaining]
  refine ⟨s, hs, ?_, ?_, htoList, htoList ▸ Seq.yields_toList hfirst, ?_⟩
  · obtain ⟨e, he⟩ := hfirst
    rw [Seq.remaining_eq_first_cons he, List.drop_eq_getElem_cons hi] at hremaining
    rw [he, (List.cons.inj hremaining).1]
  · rw [Seq.count, htoList, List.length_drop]
  · rw [Seq.next?_eq_none_iff hfirst, hremaining, List.length_drop]
    omega

theorem seq?_eq_none_iff : m.seq? = none ↔ m.toList = [] := by
  rw [← remaining_seq? m]
  cases hs : m.seq? with
  | none => simp
  | some s =>
    obtain ⟨e, he⟩ := exists_first_eq_seq? hs
    simp [Seq.remaining_eq_first_cons he]

theorem reduce?_eq (m : Map K V) (f : Entry K V → Entry K V → Entry K V) :
    m.reduce? f = match m.toList with
      | [] => none
      | e :: es => some (es.foldl f e) := by
  rw [← remaining_seq? m, reduce?]
  cases hs : m.seq? with
  | none => rfl
  | some s =>
    obtain ⟨e, he⟩ := exists_first_eq_seq? hs
    rw [Option.map_some, Option.map_some, Seq.toList_eq_remaining ⟨e, he⟩,
      Seq.remaining_eq_first_cons he]
    rfl

theorem left_seqIter (m : Map K V) : m.seqIter.left = m.toList := by
  rw [← remaining_seq? m]
  show ((((m.seq?.map fun s => ⟨some s⟩ : Option (Seq.Walk K V)).bind
    Seq.Walk.current)).map Seq.remaining).getD [] = _
  cases m.seq? <;> rfl

theorem WellFormed.counts_seqIter [HashEquiv K] (hw : m.WellFormed) : m.seqIter.Counts where
  first s hs := by
    obtain ⟨w, hw, hcurrent⟩ := Option.bind_eq_some_iff.mp hs
    obtain ⟨t, ht, rfl⟩ := Option.map_eq_some_iff.mp hw
    obtain rfl := Option.some.inj hcurrent
    exact exists_first_eq_seq? ht
  remaining_eq := by
    rw [left_seqIter]
    exact hw.count_eq

end Map

/-- **Sequences, iterators and folds go through the entries of a map that can be made in one
order.** -/
theorem walksAgree_of_reachable [HashEquiv K] [BEq V] [HashEquiv V] {m : Map K V}
    (hm : m.Reachable) : WalksAgree m where
  nestedIter := by
    rw [(protocol_of_wellFormed hm.wellFormed).nestedIter, Cursor.repliesOfList_replicate]
  iter := by
    rw [(protocol_of_wellFormed hm.wellFormed).iter, IterCall.repliesOfList_replicate]
  seq?_eq_none_iff := Map.seq?_eq_none_iff
  seqAfter? _ hi := Map.exists_seqAfter?_standsAt hi
  seqIter calls := by rw [hm.wellFormed.counts_seqIter.replies_eq, Map.left_seqIter]
  reduce? := m.reduce?_eq
  fold _ _ _ := rfl

/-- Behind the first two entries of a map the sequence holds the third one. -/
theorem walksAgree_sharedHashMap :
    sharedHashMap.Reachable ∧ WalksAgree sharedHashMap ∧
      ∃ s, sharedHashMap.seqAfter? 2 = some s ∧ s.first = .ok ⟨.pinned 3 6 0, .nil⟩ ∧
        s.count = 1 ∧ s.next? = none := by
  have hm : sharedHashMap.Reachable := Map.reachable_ofEdits _
  have hagree := walksAgree_of_reachable hm
  have hlist : sharedHashMap.toList =
      [⟨.pinned 1 5 0, .nil⟩, ⟨.pinned 2 5 0, .nil⟩, ⟨.pinned 3 6 0, .nil⟩] := by
    rw [Map.toList_eq]
    rfl
  obtain ⟨s, hs, hat⟩ := hagree.seqAfter? 2 (by rw [hlist]; decide)
  refine ⟨hm, hagree, s, hs, ?_, ?_, ?_⟩
  · simp only [hat.first_eq, hlist]
    rfl
  · rw [hat.count_eq, hlist]
    rfl
  · rw [hat.next?_eq_none_iff, hlist]
    rfl

end HashTrie
