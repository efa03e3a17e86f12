import HashTrie.Map.Iteration

/-!
# Walks over a trie

Where the steps of a sequence and the calls of a cursor lead. A sequence that a node hands out, or
another sequence goes on to, stands at an entry (`exists_first_eq_seq?`, `exists_first_eq_next?`),
and after `n` steps it holds the entries of the map behind the first `n` (`remaining_seqAfter?`). A
cursor takes the entries that it has left one by one (`exists_next_eq`). None of this asks the trie
to be well formed.
-/

namespace HashTrie

variable {K V : Type}

/-! ## Sequences stand at entries -/

namespace Node

mutual

theorem exists_first_eq_seq? (node : Node K V) {s : Seq K V} (hs : seq? node = some s) :
    ∃ e, s.first = .ok e := by
  match node with
  | .bitmap occupied slots =>
    rw [seq?] at hs
    refine exists_first_eq_slotSeq? _ 0 slots (fun j e hj => ?_) hs
    simp [entryAt?, hj]
  | .array count children =>
    rw [seq?] at hs
    exact exists_first_eq_childSeq? _ 0 children hs
  | .collision hash [] => simp [seq?] at hs
  | .collision hash (e :: entries) =>
    obtain rfl : Seq.entry (.collision hash (e :: entries)) 0 = s := by simpa [seq?] using hs
    exact ⟨e, by simp [Seq.first, entryAt?]⟩

theorem exists_first_eq_slotSeq? (node : Node K V) (index : Nat)
    (rest : List (Slot K V (Node K V)))
    (hrest : ∀ j e, rest[j]? = some (.entry e) → node.entryAt? (index + j) = some e)
    {s : Seq K V} (hs : slotSeq? node index rest = some s) : ∃ e, s.first = .ok e := by
  match rest with
  | [] => simp [slotSeq?] at hs
  | .entry e :: rest =>
    rw [slotSeq?] at hs
    obtain rfl := Option.some.inj hs
    have he := hrest 0 e rfl
    rw [Nat.add_zero] at he
    exact ⟨e, by rw [Seq.first, he]⟩
  | .child child :: rest =>
    rw [slotSeq?] at hs
    cases hc : seq? child with
    | none =>
      rw [hc] at hs
      refine exists_first_eq_slotSeq? node (index + 1) rest (fun j e hj => ?_) hs
      rw [Nat.add_right_comm, Nat.add_assoc]
      exact hrest (j + 1) e (by simpa using hj)
    | some inner =>
      rw [hc] at hs
      obtain rfl := Option.some.inj hs
      rw [Seq.first]
      exact exists_first_eq_seq? child hc

theorem exists_first_eq_childSeq? (node : Node K V) (index : Nat)
    (rest : List (Option (Node K V))) {s : Seq K V} (hs : childSeq? node index rest = some s) :
    ∃ e, s.first = .ok e := by
  match rest with
  | [] => simp [childSeq?] at hs
  | none :: rest =>
    rw [childSeq?] at hs
    exact exists_first_eq_childSeq? node (index + 1) rest hs
  | some child :: rest =>
    rw [childSeq?] at hs
    cases hc : seq? child with
    | none =>
      rw [hc] at hs
      exact exists_first_eq_childSeq? node (index + 1) rest hs
    | some inner =>
      rw [hc] at hs
      obtain rfl := Option.some.inj hs
      rw [Seq.first]
      exact exists_first_eq_seq? child hc

end

theorem exists_first_eq_seqFrom? (node : Node K V) (index : Nat) {s : Seq K V}
    (hs : node.seqFrom? index = some s) : ∃ e, s.first = .ok e := by
  cases node with
  | bitmap occupied slots =>
    refine exists_first_eq_slotSeq? _ index (slots.drop index) (fun j e hj => ?_) hs
    rw [List.getElem?_drop] at hj
    simp [entryAt?, hj]
  | array count children => exact exists_first_eq_childSeq? _ index (children.drop index) hs
  | collision hash entries =>
    rw [seqFrom?] at hs
    split at hs
    · next hlt =>
      obtain rfl := Option.some.inj hs
      exact ⟨entries[index], by rw [Seq.first, entryAt?, List.getElem?_eq_getElem hlt]⟩
    · cases hs

end Node

namespace Seq

variable {s t : Seq K V}

/-- **Going on never leads off the entries.** -/
theorem exists_first_eq_next? (hs : s.next? = some t) : ∃ e, t.first = .ok e := by
  induction s generalizing t with
  | entry node index => exact node.exists_first_eq_seqFrom? (index + 1) hs
  | inside node index inner ih =>
    rw [next?] at hs
    cases hn : inner.next? with
    | none =>
      rw [hn] at hs
      exact node.exists_first_eq_seqFrom? index hs
    | some inner' =>
      rw [hn] at hs
      obtain rfl := Option.some.inj hs
      rw [first]
      exact ih hn

/-- The sequence after a number of steps. -/
def after? : Nat → Seq K V → Option (Seq K V)
  | 0, s => some s
  | n + 1, s => s.next?.bind (after? n)

theorem exists_first_eq_after? {n : Nat} (hfirst : ∃ e, s.first = .ok e)
    (hs : s.after? n = some t) : ∃ e, t.first = .ok e := by
  induction n generalizing s with
  | zero =>
    obtain rfl := Option.some.inj hs
    exact hfirst
  | succ n ih =>
    obtain ⟨s', hnext, hs'⟩ := Option.bind_eq_some_iff.mp hs
    exact ih (exists_first_eq_next? hnext) hs'

/-- Each step takes one entry off the remaining ones. -/
theorem remaining_after? (hfirst : ∃ e, s.first = .ok e) (n : Nat) :
    ((s.after? n).map remaining).getD [] = s.remaining.drop n := by
  induction n generalizing s with
  | zero => rfl
  | succ n ih =>
    obtain ⟨e, he⟩ := hfirst
    rw [remaining_eq_first_cons he, List.drop_succ_cons, after?]
    cases hnext : s.next? with
    | none => simp
    | some t => simpa using ih (exists_first_eq_next? hnext)

end Seq

namespace Map

variable {m : Map K V} {s : Seq K V} {n : Nat}

/-- The sequence after a number of steps from the first entry. -/
def seqAfter? (m : Map K V) (n : Nat) : Option (Seq K V) := m.seq?.bind (Seq.after? n)

theorem exists_first_eq_seq? (hs : m.seq? = some s) : ∃ e, s.first = .ok e := by
  obtain ⟨node, -, hnode⟩ := Option.bind_eq_some_iff.mp hs
  exact node.exists_first_eq_seq? hnode

/-- **Every sequence over a map stands at an entry.** -/
theorem exists_first_eq_seqAfter? (hs : m.seqAfter? n = some s) : ∃ e, s.first = .ok e := by
  obtain ⟨s₀, hseq, hafter⟩ := Option.bind_eq_some_iff.mp hs
  exact Seq.exists_first_eq_after? (exists_first_eq_seq? hseq) hafter

theorem remaining_seq? (m : Map K V) : (m.seq?.map Seq.remaining).getD [] = m.toList := by
  rw [toList_eq, seq?]
  cases m.node? with
  | none => rfl
  | some node => exact Node.remaining_seq? node

/-- **After `n` steps a sequence holds the entries behind the first `n`.** -/
theorem remaining_seqAfter? (m : Map K V) (n : Nat) :
    ((m.seqAfter? n).map Seq.remaining).getD [] = m.toList.drop n := by
  rw [← remaining_seq? m, seqAfter?]
  cases hs : m.seq? with
  | none => simp
  | some s => exact Seq.remaining_after? (exists_first_eq_seq? hs) n

theorem remaining_of_seqAfter?_eq_some (hs : m.seqAfter? n = some s) :
    s.remaining = m.toList.drop n := by
  rw [← remaining_seqAfter?, hs]
  rfl

/-- A sequence can go on as long as there are entries. -/
theorem isSome_seqAfter? (m : Map K V) (n : Nat) :
    (m.seqAfter? n).isSome = decide (n < m.toList.length) := by
  have hremaining := remaining_seqAfter? m n
  cases hs : m.seqAfter? n with
  | none =>
    rw [hs] at hremaining
    have hle := List.drop_eq_nil_iff.mp hremaining.symm
    exact (decide_eq_false (Nat.not_lt.mpr hle)).symm
  | some s =>
    obtain ⟨e, he⟩ := exists_first_eq_seqAfter? hs
    have hcons := Seq.remaining_eq_first_cons he
    rw [remaining_of_seqAfter?_eq_some hs] at hcons
    rcases Nat.lt_or_ge n m.toList.length with hlt | hle
    · exact (decide_eq_true hlt).symm
    · rw [List.drop_eq_nil_of_le hle] at hcons
      cases hcons

end Map

/-! ## Cursors -/

namespace Cursor

/-- The entries that a cursor has not handed out yet. -/
def left (c : Cursor K V) : List (Entry K V) := c.pending.toList ++ stackEntries c.stack

theorem left_ofRoot (root : Option (Node K V)) :
    (ofRoot root).left = (root.map Node.toList).getD [] := by
  cases root with
  | none => rfl
  | some node => simp [left, ofRoot, stackEntries_frame, stackEntries]

/-- Asking for more hands out nothing. -/
theorem left_hasNext (c : Cursor K V) : c.hasNext.2.left = c.left := by
  unfold hasNext
  split
  · rfl
  · next hpending =>
    have hadvance := stackEntries_eq_of_advance c.stack
    split
    · next hnone =>
      rw [hnone] at hadvance
      simp [left, hpending, hadvance, stackEntries]
    · next e stack hsome =>
      rw [hsome] at hadvance
      simp [left, hpending, hadvance]

/-- A cursor that has asked for more without reaching an entry has none left. -/
theorem left_of_pending_hasNext_eq_none {c : Cursor K V} (hnone : c.hasNext.2.pending = none) :
    c.hasNext.2.left = [] := by
  unfold hasNext at hnone ⊢
  split at hnone
  · next hpending => simp [hpending] at hnone
  · split at hnone
    · rfl
    · simp at hnone

/-- **A cursor hands out the first of the entries that it has left.** -/
theorem exists_next_eq (c : Cursor K V) :
    ∃ c' : Cursor K V, c'.left = c.left.tail ∧
      c.next = ((match c.left with
        | [] => .error .exhausted
        | e :: _ => .ok e), c') := by
  rw [← left_hasNext c]
  cases hpending : c.hasNext.2.pending with
  | none =>
    have hnil := left_of_pending_hasNext_eq_none hpending
    rw [hnil]
    exact ⟨c.hasNext.2, hnil, by simp only [next, hpending]⟩
  | some e =>
    have hcons : c.hasNext.2.left = e :: stackEntries c.hasNext.2.stack := by
      simp [left, hpending]
    rw [hcons]
    exact ⟨⟨none, c.hasNext.2.stack⟩, rfl, by simp only [next, hpending]⟩

end Cursor

theorem Map.left_cursor (m : Map K V) : m.cursor.left = m.toList := by
  rw [cursor, Cursor.left_ofRoot, toList_eq]

end HashTrie
