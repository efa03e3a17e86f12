import HashTrie.Trie.Bitmap
import Mathlib.Data.List.FinRange
import Mathlib.Logic.Function.Basic
import Mathlib.Order.Fin.Basic

/-!
# Lists that are indexed by slice

A bitmap names the occupied slices, and a list with one element per set bit holds what is stored
there. `lookup b xs i` is the element of slice `i`. When `xs` has as many elements as `b` has set
bits, `xs` is the list of all `lookup b xs i` in the order of the slices (`filterMap_lookup`), and
the list of the values of any partial function on slices is looked up by that function
(`lookup_filterMap`). So an edit of the list at the rank of a slice, with the matching change of the
bitmap, changes the lookup at that slice only: `lookup_set`, `lookup_insertIdx`, `lookup_eraseIdx`.
-/

namespace HashTrie

/-! ## The slices below and above a slice -/

/-- The slices below a slice. -/
def lowerSlices (i : Fin 32) : List (Fin 32) := (List.finRange 32).take i

/-- The slices above a slice. -/
def upperSlices (i : Fin 32) : List (Fin 32) := (List.finRange 32).drop (i + 1)

theorem finRange_eq_lower_upper (i : Fin 32) :
    List.finRange 32 = lowerSlices i ++ i :: upperSlices i := by
  have hi : i.val < (List.finRange 32).length := by simp
  have hget : (List.finRange 32)[i.val] = i := by simp
  have hdrop := List.drop_eq_getElem_cons hi
  rw [hget] at hdrop
  rw [lowerSlices, upperSlices, ← hdrop, List.take_append_drop]

theorem pairwise_lower_upper (i : Fin 32) :
    (lowerSlices i ++ i :: upperSlices i).Pairwise (· < ·) :=
  finRange_eq_lower_upper i ▸ List.pairwise_lt_finRange 32

@[simp] theorem mem_lowerSlices {i j : Fin 32} : j ∈ lowerSlices i ↔ j < i := by
  obtain ⟨-, hup, hlow⟩ := List.pairwise_append.mp (pairwise_lower_upper i)
  refine ⟨fun h => hlow j h i (by simp), fun h => ?_⟩
  have hj : j ∈ lowerSlices i ++ i :: upperSlices i :=
    finRange_eq_lower_upper i ▸ List.mem_finRange j
  rcases List.mem_append.mp hj with hj | hj
  · exact hj
  · rcases List.mem_cons.mp hj with rfl | hj
    · exact absurd h (lt_irrefl _)
    · exact absurd h (lt_asymm ((List.pairwise_cons.mp hup).1 j hj))

@[simp] theorem mem_upperSlices {i j : Fin 32} : j ∈ upperSlices i ↔ i < j := by
  obtain ⟨-, hup, -⟩ := List.pairwise_append.mp (pairwise_lower_upper i)
  refine ⟨fun h => (List.pairwise_cons.mp hup).1 j h, fun h => ?_⟩
  have hj : j ∈ lowerSlices i ++ i :: upperSlices i :=
    finRange_eq_lower_upper i ▸ List.mem_finRange j
  simp only [List.mem_append, mem_lowerSlices, List.mem_cons] at hj
  rcases hj with hj | rfl | hj
  · exact absurd h (lt_asymm hj)
  · exact absurd h (lt_irrefl _)
  · exact hj

/-- A partial function on slices that is changed at one slice lists its values as before on the
slices below and above. -/
theorem filterMap_congr_off {α : Type} {f g : Fin 32 → Option α} {i : Fin 32}
    (hfg : ∀ j, j ≠ i → f j = g j) :
    (lowerSlices i).filterMap f = (lowerSlices i).filterMap g ∧
      (upperSlices i).filterMap f = (upperSlices i).filterMap g := by
  constructor <;> apply List.filterMap_congr <;> intro j hj
  · exact hfg j (ne_of_lt (mem_lowerSlices.mp hj))
  · exact hfg j (ne_of_gt (mem_upperSlices.mp hj))

theorem take_succ_finRange (i : Fin 32) :
    (List.finRange 32).take (i + 1) = lowerSlices i ++ [i] := by
  rw [List.take_succ_eq_append_getElem (by simp), List.getElem_finRange]
  rfl

theorem filterMap_finRange_eq {α : Type} (f : Fin 32 → Option α) (i : Fin 32) :
    (List.finRange 32).filterMap f =
      (lowerSlices i).filterMap f ++ ((f i).toList ++ (upperSlices i).filterMap f) := by
  rw [finRange_eq_lower_upper i, List.filterMap_append, List.filterMap_cons]
  cases f i <;> rfl

namespace Bitmap

/-! ## Counting bits -/

theorem cpopNatRec_eq_countP (b : Bitmap) (n acc : Nat) :
    b.cpopNatRec n acc = acc + (List.range n).countP b.getLsbD := by
  induction n generalizing acc with
  | zero => simp
  | succ n ih =>
    rw [BitVec.cpopNatRec_succ, ih, List.range_succ, List.countP_append, List.countP_singleton]
    cases b.getLsbD n
    · simp
    · simp only [Bool.toNat_true, if_true]
      omega

/-- The number of set bits is the number of occupied slices. -/
theorem popCount_eq_countP (b : Bitmap) : popCount b = (List.finRange 32).countP (has b) := by
  rw [popCount, cpopNatRec_eq_countP, ← List.map_coe_finRange_eq_range, List.countP_map,
    Nat.zero_add]
  rfl

/-- The bits below the bit of a slice. -/
theorem has_single_sub_one (i j : Fin 32) : has (single i - 1) j = decide (j < i) := by
  have hi : (2 : Nat) ^ i.val < 2 ^ 32 := Nat.pow_lt_pow_right (by decide) i.isLt
  have hpos : 0 < (2 : Nat) ^ i.val := Nat.two_pow_pos _
  have hval : (single i - 1).toNat = 2 ^ i.val - 1 := by
    rw [single, BitVec.toNat_sub, BitVec.toNat_twoPow_of_lt i.isLt,
      show BitVec.toNat (1 : BitVec 32) = 1 from rfl]
    omega
  rw [has, BitVec.getLsbD, hval, Nat.testBit_two_pow_sub_one]
  rfl

/-- The rank of a slice is the number of occupied slices below it. -/
theorem rank_eq_countP (b : Bitmap) (i : Fin 32) : rank b i = (lowerSlices i).countP (has b) := by
  have hand : ∀ j, has (b &&& (single i - 1)) j = (has b j && decide (j < i)) := by
    intro j
    rw [← has_single_sub_one]
    simp [has]
  rw [rank, popCount_eq_countP, finRange_eq_lower_upper i, List.countP_append, List.countP_cons]
  have hlow : (lowerSlices i).countP (has (b &&& (single i - 1))) =
      (lowerSlices i).countP (has b) := by
    apply List.countP_congr
    intro j hj
    rw [hand, decide_eq_true (mem_lowerSlices.mp hj), Bool.and_true]
  have hup : (upperSlices i).countP (has (b &&& (single i - 1))) = 0 := by
    rw [List.countP_eq_zero]
    intro j hj
    rw [hand, decide_eq_false (lt_asymm (mem_upperSlices.mp hj)), Bool.and_false]
    exact Bool.false_ne_true
  rw [hlow, hup, hand]
  simp

theorem rank_lt_popCount {b : Bitmap} {i : Fin 32} (h : has b i) : rank b i < popCount b := by
  rw [rank_eq_countP, popCount_eq_countP, finRange_eq_lower_upper i, List.countP_append,
    List.countP_cons_of_pos h]
  omega

theorem rank_le_popCount (b : Bitmap) (i : Fin 32) : rank b i ≤ popCount b := by
  rw [rank_eq_countP, popCount_eq_countP, finRange_eq_lower_upper i, List.countP_append]
  omega

/-- An occupied slice counts for the ranks above it. -/
theorem rank_lt_rank {b : Bitmap} {i j : Fin 32} (hi : has b i) (hij : i < j) :
    rank b i < rank b j := by
  have hone : ((lowerSlices i ++ [i]).countP (has b)) = rank b i + 1 := by
    rw [List.countP_append, List.countP_singleton, if_pos hi, rank_eq_countP]
  have hsub : (lowerSlices i ++ [i]).Sublist (lowerSlices j) := by
    rw [← take_succ_finRange]
    exact List.take_sublist_take_left hij
  have hle := hsub.countP_le (p := has b)
  rw [hone, ← rank_eq_countP] at hle
  exact hle

@[simp] theorem has_empty (i : Fin 32) : has empty i = false := by simp [has, empty]

@[simp] theorem has_single (i j : Fin 32) : has (single i) j = decide (i = j) := by
  simp [has, single, Fin.ext_iff, eq_comm]

theorem ext_has {b c : Bitmap} (h : ∀ i, has b i = has c i) : b = c :=
  BitVec.eq_of_getLsbD_eq fun i hi => h ⟨i, hi⟩

/-- A bitmap with the bit of a slice is that of the slice alone when no other bit is set. -/
theorem eq_single_iff {b : Bitmap} {i : Fin 32} (hi : has b i) :
    b = single i ↔ ∀ j, has b j → j = i := by
  constructor
  · rintro rfl j hj
    simpa [eq_comm] using hj
  · intro hall
    apply ext_has
    intro j
    by_cases hij : i = j
    · subst hij
      simp [hi]
    · have hj : has b j = false := by simpa using fun hj => hij (hall j hj).symm
      simp [hj, hij]

theorem single_eq_insert_empty (i : Fin 32) : single i = insert empty i :=
  ext_has fun j => by simp [has_insert]

theorem rank_single (i j : Fin 32) : rank (single i) j = if i < j then 1 else 0 := by
  have hnodup : (lowerSlices j).Nodup :=
    (List.nodup_finRange 32).sublist (List.take_sublist _ _)
  have hcount : (lowerSlices j).countP (has (single i)) = (lowerSlices j).count i := by
    rw [List.count_eq_countP]
    apply List.countP_congr
    intro k _
    rw [has_single, decide_eq_true_iff, beq_iff_eq]
    exact eq_comm
  rw [rank_eq_countP, hcount, hnodup.count]
  simp

theorem popCount_empty : popCount empty = 0 := rfl

theorem has_ofSlices (is : List (Fin 32)) (i : Fin 32) : has (ofSlices is) i = decide (i ∈ is) := by
  induction is with
  | nil => simp
  | cons j is ih =>
    rw [ofSlices_cons, has_insert, ih]
    simp [eq_comm]

/-! ## Lookup by slice -/

/-- The element of a slice in a list with one element per occupied slice. -/
def lookup {α : Type} (b : Bitmap) (xs : List α) (i : Fin 32) : Option α :=
  if has b i then xs[rank b i]? else none

variable {α : Type} {b : Bitmap} {xs : List α}

theorem lookup_of_has {i : Fin 32} (h : has b i) : lookup b xs i = xs[rank b i]? := if_pos h

theorem lookup_of_not_has {i : Fin 32} (h : has b i = false) : lookup b xs i = none := by
  simp [lookup, h]

theorem lookup_eq_some_iff {i : Fin 32} {x : α} :
    lookup b xs i = some x ↔ has b i = true ∧ xs[rank b i]? = some x := by
  cases h : has b i <;> simp [lookup, h]

/-- An aligned list has an element at exactly the occupied slices. -/
theorem isSome_lookup (hlen : xs.length = popCount b) (i : Fin 32) :
    (lookup b xs i).isSome = has b i := by
  cases h : has b i with
  | false => simp [lookup_of_not_has h]
  | true =>
    have hlt : rank b i < xs.length := hlen ▸ rank_lt_popCount h
    simp [lookup_of_has h, hlt]

theorem length_filterMap_eq_countP {f : Fin 32 → Option α} (hf : ∀ i, (f i).isSome = has b i)
    (is : List (Fin 32)) : (is.filterMap f).length = is.countP (has b) := by
  rw [List.length_filterMap_eq_countP]
  exact List.countP_congr fun i _ => by rw [hf]

/-- The values of a partial function on slices are as many as the set bits of its domain. -/
theorem length_filterMap_eq_popCount {f : Fin 32 → Option α} (hf : ∀ i, (f i).isSome = has b i) :
    ((List.finRange 32).filterMap f).length = popCount b := by
  rw [length_filterMap_eq_countP hf, popCount_eq_countP]

/-- **The values of a partial function on slices, listed in order, are looked up by it.** -/
theorem lookup_filterMap {f : Fin 32 → Option α} (hf : ∀ i, (f i).isSome = has b i) :
    lookup b ((List.finRange 32).filterMap f) = f := by
  funext i
  cases h : has b i with
  | false =>
    have hnone : f i = none := Option.isNone_iff_eq_none.mp (by simp [← Option.not_isSome, hf, h])
    rw [lookup_of_not_has h, hnone]
  | true =>
    obtain ⟨x, hx⟩ := Option.isSome_iff_exists.mp ((hf i).trans h)
    have hlen : ((lowerSlices i).filterMap f).length = rank b i := by
      rw [length_filterMap_eq_countP hf, rank_eq_countP]
    rw [lookup_of_has h, finRange_eq_lower_upper i, List.filterMap_append,
      List.filterMap_cons_some hx, List.getElem?_append_right (le_of_eq hlen), hlen, Nat.sub_self,
      hx]
    rfl

theorem filterMap_take_lookup (b : Bitmap) (xs : List α) {n : Nat} (hn : n ≤ 32) :
    ((List.finRange 32).take n).filterMap (lookup b xs) =
      xs.take (((List.finRange 32).take n).countP (has b)) := by
  induction n with
  | zero => simp
  | succ n ih =>
    let i : Fin 32 := ⟨n, hn⟩
    have htake : (List.finRange 32).take (n + 1) = (List.finRange 32).take n ++ [i] :=
      take_succ_finRange i
    have hrank : ((List.finRange 32).take n).countP (has b) = rank b i := (rank_eq_countP b i).symm
    rw [htake, List.filterMap_append, ih (by omega), List.countP_append, hrank]
    cases h : has b i with
    | false => simp [lookup_of_not_has h, h]
    | true =>
      rw [List.countP_singleton, if_pos h, List.take_add_one, List.filterMap_cons, lookup_of_has h]
      cases xs[rank b i]? <;> rfl

/-- **A list with one element per occupied slice is the list of what is looked up in it.** -/
theorem filterMap_lookup (hlen : xs.length = popCount b) :
    (List.finRange 32).filterMap (lookup b xs) = xs := by
  have h := filterMap_take_lookup b xs (le_refl 32)
  rwa [List.take_of_length_le (by simp), ← popCount_eq_countP, ← hlen, List.take_length] at h

/-! ## Edits of the list and the bitmap -/

/-- The list after a change at one slice: the slices below it keep their elements, and so do those
above it. -/
theorem filterMap_update_lookup (hlen : xs.length = popCount b) (i : Fin 32) (o : Option α) :
    (List.finRange 32).filterMap (Function.update (lookup b xs) i o) =
      xs.take (rank b i) ++ (o.toList ++ xs.drop (rank b i + (has b i).toNat)) := by
  obtain ⟨hlow, hup⟩ := filterMap_congr_off (i := i) (f := Function.update (lookup b xs) i o)
    (g := lookup b xs) fun j hj => Function.update_of_ne hj _ _
  have hrank : ((lowerSlices i).filterMap (lookup b xs)).length = rank b i := by
    rw [length_filterMap_eq_countP (isSome_lookup hlen), rank_eq_countP]
  have hone : ((lookup b xs i).toList).length = (has b i).toNat := by
    rw [← isSome_lookup hlen i]
    cases lookup b xs i <;> rfl
  have hsplit : xs = (lowerSlices i).filterMap (lookup b xs) ++
      ((lookup b xs i).toList ++ (upperSlices i).filterMap (lookup b xs)) := by
    conv_lhs => rw [← filterMap_lookup hlen, filterMap_finRange_eq (lookup b xs) i]
  rw [filterMap_finRange_eq _ i, hlow, hup, Function.update_self]
  conv_rhs => rw [hsplit]
  rw [List.take_left' hrank, ← List.drop_drop, List.drop_left' hrank, List.drop_left' hone]

/-- After a change at one slice the list is looked up as before at every other slice. -/
theorem lookup_edit (hlen : xs.length = popCount b) {c : Bitmap} {i : Fin 32} {o : Option α}
    (hc : ∀ j, has c j = if j = i then o.isSome else has b j) :
    lookup c (xs.take (rank b i) ++ (o.toList ++ xs.drop (rank b i + (has b i).toNat))) =
      Function.update (lookup b xs) i o := by
  rw [← filterMap_update_lookup hlen]
  apply lookup_filterMap
  intro j
  rw [hc]
  by_cases hj : j = i
  · subst hj
    simp
  · rw [Function.update_of_ne hj, isSome_lookup hlen, if_neg hj]

theorem insertIdx_eq_take_append_cons_drop {n : Nat} (h : n ≤ xs.length) (x : α) :
    xs.insertIdx n x = xs.take n ++ x :: xs.drop n := by
  have hn : (xs.take n).length = n := by simpa using h
  have hmod := List.modifyTailIdx_add (List.cons x) 0 (xs.take n) (xs.drop n)
  rwa [List.take_append_drop, hn] at hmod

/-- Replacing the element of an occupied slice. -/
theorem lookup_set (hlen : xs.length = popCount b) {i : Fin 32} (h : has b i) (x : α) :
    lookup b (xs.set (rank b i) x) = Function.update (lookup b xs) i (some x) := by
  have hlt : rank b i < xs.length := hlen ▸ rank_lt_popCount h
  rw [← lookup_edit hlen (c := b), h, List.set_eq_take_append_cons_drop, if_pos hlt]
  · rfl
  · intro j
    by_cases hj : j = i <;> simp [hj, h]

/-- Putting in the element of a free slice. -/
theorem lookup_insertIdx (hlen : xs.length = popCount b) {i : Fin 32} (h : has b i = false)
    (x : α) :
    lookup (insert b i) (xs.insertIdx (rank b i) x) = Function.update (lookup b xs) i (some x) := by
  have hle : rank b i ≤ xs.length := hlen ▸ rank_le_popCount b i
  rw [← lookup_edit hlen (c := insert b i), h, insertIdx_eq_take_append_cons_drop hle]
  · rfl
  · intro j
    by_cases hj : j = i
    · simp [hj, has_insert]
    · simp [has_insert, hj, Ne.symm hj]

/-- Taking out the element of an occupied slice. -/
theorem lookup_eraseIdx (hlen : xs.length = popCount b) {i : Fin 32} (h : has b i) :
    lookup (toggle b i) (xs.eraseIdx (rank b i)) = Function.update (lookup b xs) i none := by
  rw [← lookup_edit hlen (c := toggle b i), h, List.eraseIdx_eq_take_drop_succ]
  · rfl
  · intro j
    by_cases hj : j = i
    · simp [hj, has_toggle, h]
    · simp [has_toggle, hj, Ne.symm hj]

/-- A change at one slice changes the number of set bits by the bit of that slice. -/
theorem popCount_edit {c : Bitmap} {i : Fin 32} (hc : ∀ j, j ≠ i → has c j = has b j) :
    popCount c + (has b i).toNat = popCount b + (has c i).toNat := by
  have hlow : (lowerSlices i).countP (has c) = (lowerSlices i).countP (has b) :=
    List.countP_congr fun j hj => by rw [hc j (ne_of_lt (mem_lowerSlices.mp hj))]
  have hup : (upperSlices i).countP (has c) = (upperSlices i).countP (has b) :=
    List.countP_congr fun j hj => by rw [hc j (ne_of_gt (mem_upperSlices.mp hj))]
  simp only [popCount_eq_countP, finRange_eq_lower_upper i, List.countP_append, List.countP_cons,
    hlow, hup]
  cases has b i <;> cases has c i <;> simp <;> omega

theorem popCount_insert {i : Fin 32} (h : has b i = false) :
    popCount (insert b i) = popCount b + 1 := by
  have hedit := popCount_edit (b := b) (c := insert b i) (i := i) fun j hj => by
    simp [has_insert, Ne.symm hj]
  simpa [has_insert, h] using hedit

theorem popCount_toggle {i : Fin 32} (h : has b i) : popCount (toggle b i) + 1 = popCount b := by
  have hedit := popCount_edit (b := b) (c := toggle b i) (i := i) fun j hj => by
    simp [has_toggle, Ne.symm hj]
  simpa [has_toggle, h] using hedit

/-- The list has one element per occupied slice again when one has been put in. -/
theorem length_insertIdx_rank (hlen : xs.length = popCount b) {i : Fin 32} (h : has b i = false)
    (x : α) : (xs.insertIdx (rank b i) x).length = popCount (insert b i) := by
  have hle : rank b i ≤ xs.length := hlen ▸ rank_le_popCount b i
  rw [List.length_insertIdx_of_le_length hle, popCount_insert h, hlen]

/-- The list has one element per occupied slice again when one has been taken out. -/
theorem length_eraseIdx_rank (hlen : xs.length = popCount b) {i : Fin 32} (h : has b i) :
    (xs.eraseIdx (rank b i)).length = popCount (toggle b i) := by
  have hlt : rank b i < xs.length := hlen ▸ rank_lt_popCount h
  have hpop := popCount_toggle h
  rw [List.length_eraseIdx_of_lt hlt]
  omega

end Bitmap

end HashTrie
