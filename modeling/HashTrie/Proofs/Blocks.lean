import HashTrie.Proofs.Mixers
import Mathlib.Algebra.GroupWithZero.Nat
import Mathlib.Data.Set.Function

/-!
# Differences of one block

The hash of a scalar folds the absorption of a block over its blocks: one word for a 32-bit integer,
two for a 64-bit one, and two code units of a string at a time, of which the last may stand alone.
The mixers lose nothing, so scalars that differ in one block have different hashes
(`tellsBlocksApart`). The integer zero is not mixed, and meets exactly one of the others.
-/

namespace HashTrie.Murmur

open Function

/-! ## Integers -/

/-- The low word of a 64-bit integer. -/
def lowWord (x : Int64) : UInt32 := x.toUInt64.toUInt32

/-- The high word of a 64-bit integer. -/
def highWord (x : Int64) : UInt32 := (x.toUInt64 >>> 32).toUInt32

theorem toNat_lowWord (x : Int64) : (lowWord x).toNat = x.toUInt64.toNat % 2 ^ 32 :=
  UInt64.toNat_toUInt32 _

theorem toNat_highWord (x : Int64) : (highWord x).toNat = x.toUInt64.toNat / 2 ^ 32 := by
  rw [highWord, UInt64.toNat_toUInt32, UInt64.toNat_shiftRight, Nat.shiftRight_eq_div_pow]
  exact Nat.mod_eq_of_lt (Nat.div_lt_of_lt_mul x.toUInt64.toNat_lt)

theorem ofInt32_of_ne_zero {x : Int32} (hx : x ≠ 0) : ofInt32 x = collection x.toUInt32 4 :=
  if_neg hx

theorem ofInt64_of_ne_zero {x : Int64} (hx : x ≠ 0) :
    ofInt64 x = finish (absorb (absorb 0 (scramble (lowWord x))) (scramble (highWord x))) 8 :=
  if_neg hx

theorem toUInt32_injective : Injective Int32.toUInt32 :=
  LeftInverse.injective Int32.toInt32_toUInt32

/-- An integer is made of its two words. -/
theorem int64_ext {x y : Int64} (hlow : lowWord x = lowWord y) (hhigh : highWord x = highWord y) :
    x = y := by
  have hlow := congrArg UInt32.toNat hlow
  have hhigh := congrArg UInt32.toNat hhigh
  rw [toNat_lowWord, toNat_lowWord] at hlow
  rw [toNat_highWord, toNat_highWord] at hhigh
  apply LeftInverse.injective Int64.toInt64_toUInt64
  rw [← UInt64.toNat_inj, ← Nat.div_add_mod x.toUInt64.toNat (2 ^ 32), hlow, hhigh,
    Nat.div_add_mod]

theorem ofInt32_injOn : Set.InjOn ofInt32 {x | x ≠ 0} := by
  intro x hx y hy h
  rw [ofInt32_of_ne_zero hx, ofInt32_of_ne_zero hy] at h
  exact toUInt32_injective (collection_injective 4 h)

/-- Exactly one other integer has the hash of zero: the one whose word is mixed to zero. -/
theorem existsUnique_ofInt32_eq : ∃! x : Int32, x ≠ 0 ∧ ofInt32 x = ofInt32 0 := by
  obtain ⟨w, hw⟩ := Finite.injective_iff_surjective.mp (collection_injective 4) 0
  have hne : w.toInt32 ≠ 0 := by
    intro hzero
    have hw0 : w = 0 := (UInt32.toUInt32_toInt32 w).symm.trans (congrArg Int32.toUInt32 hzero)
    rw [hw0] at hw
    exact absurd hw (by decide)
  refine ⟨w.toInt32, ⟨hne, ?_⟩, fun y ⟨hy, heq⟩ => ?_⟩
  · rw [ofInt32_of_ne_zero hne, UInt32.toUInt32_toInt32]
    exact hw
  · rw [ofInt32_of_ne_zero hy] at heq
    rw [← collection_injective 4 (heq.trans hw.symm), Int32.toInt32_toUInt32]

theorem ofInt64_ne {x y : Int64} (hx : x ≠ 0) (hy : y ≠ 0) (hne : x ≠ y)
    (h : lowWord x = lowWord y ∨ highWord x = highWord y) : ofInt64 x ≠ ofInt64 y := by
  intro heq
  rw [ofInt64_of_ne_zero hx, ofInt64_of_ne_zero hy] at heq
  have hstate := finish_injective 8 heq
  rcases h with hlow | hhigh
  · rw [hlow] at hstate
    exact hne (int64_ext hlow (scramble_injective (absorb_injective_block _ hstate)))
  · rw [hhigh] at hstate
    have hfirst := absorb_injective_block 0 (absorb_injective_state _ hstate)
    exact hne (int64_ext (scramble_injective hfirst) hhigh)

/-! ## Strings -/

/-- The blocks of a list of code units: two units each, and an odd last one alone. -/
def blocks : List UInt16 → List (UInt16 × Option UInt16)
  | low :: high :: rest => (low, some high) :: blocks rest
  | [last] => [(last, none)]
  | [] => []

/-- The number of code units of a block. -/
def width (b : UInt16 × Option UInt16) : Nat := if b.2.isSome then 2 else 1

/-- Take one block into the state; a unit that stands alone is mixed in without the rotation. -/
def absorbBlock (state : UInt32) : UInt16 × Option UInt16 → UInt32
  | (low, some high) => absorb state (scramble (blockOfUnits low high))
  | (last, none) => state ^^^ scramble last.toUInt32

theorem absorbUnits_eq_foldl (state : UInt32) (units : List UInt16) :
    absorbUnits state units = (blocks units).foldl absorbBlock state := by
  fun_induction absorbUnits state units with
  | case1 state low high rest ih => rw [ih, blocks, List.foldl_cons, absorbBlock]
  | case2 => rfl
  | case3 => rfl

theorem sum_width_blocks (units : List UInt16) : ((blocks units).map width).sum = units.length := by
  fun_induction blocks units with
  | case1 low high rest ih =>
    rw [List.map_cons, List.sum_cons, ih]
    exact Nat.add_comm 2 _
  | case2 => rfl
  | case3 => rfl

/-- The number of a block: the second unit stands above the first. -/
theorem toNat_blockOfUnits (low high : UInt16) :
    (blockOfUnits low high).toNat = low.toNat + 2 ^ 16 * high.toNat := by
  have hhigh : high.toNat * 2 ^ 16 < 2 ^ 32 := by
    have := high.toNat_lt
    omega
  rw [blockOfUnits, UInt32.toNat_or, UInt32.toNat_shiftLeft, UInt16.toNat_toUInt32,
    UInt16.toNat_toUInt32, Nat.shiftLeft_eq]
  show low.toNat ||| high.toNat * 2 ^ 16 % 2 ^ 32 = _
  rw [Nat.mod_eq_of_lt hhigh, Nat.or_comm, Nat.mul_comm,
    ← Nat.two_pow_add_eq_or_of_lt low.toNat_lt, Nat.add_comm]

theorem eq_of_blockOfUnits_eq {low high low' high' : UInt16}
    (h : blockOfUnits low high = blockOfUnits low' high') : low = low' ∧ high = high' := by
  have h := congrArg UInt32.toNat h
  rw [toNat_blockOfUnits, toNat_blockOfUnits] at h
  have hlow := low.toNat_lt
  have hlow' := low'.toNat_lt
  exact ⟨UInt16.toNat_inj.mp (by omega), UInt16.toNat_inj.mp (by omega)⟩

theorem absorbBlock_injective (b : UInt16 × Option UInt16) :
    Injective fun state => absorbBlock state b := by
  rcases b with ⟨low, _ | high⟩
  · exact fun _ _ h => (UInt32.xor_left_inj _).mp h
  · exact absorb_injective_state _

/-- Blocks of one width lead from each state to different ones. -/
theorem absorbBlock_ne {b b' : UInt16 × Option UInt16} (hwidth : width b = width b') (hne : b ≠ b')
    (state : UInt32) : absorbBlock state b ≠ absorbBlock state b' := by
  intro h
  apply hne
  rcases b with ⟨low, _ | high⟩ <;> rcases b' with ⟨low', _ | high'⟩
  · rw [UInt16.toUInt32_inj.mp (scramble_injective ((UInt32.xor_right_inj _).mp h))]
  · cases hwidth
  · cases hwidth
  · obtain ⟨rfl, rfl⟩ := eq_of_blockOfUnits_eq (scramble_injective (absorb_injective_block _ h))
    rfl

theorem ofUnits_ne {us vs : List UInt16} (hlen : us.length = vs.length)
    (h : DifferOnce (blocks us) (blocks vs)) : ofUnits us ≠ ofUnits vs := by
  obtain ⟨before, b, b', behind, hne, hus, hvs⟩ := h.exists_split
  -- the other blocks are the same, so these two have one width
  have hwidth : width b = width b' := by
    rw [← sum_width_blocks, ← sum_width_blocks, hus, hvs] at hlen
    simp only [List.map_append, List.map_cons, List.sum_append, List.sum_cons] at hlen
    omega
  intro heq
  rw [ofUnits, ofUnits, hlen] at heq
  have hstate := finish_injective _ heq
  rw [absorbUnits_eq_foldl, absorbUnits_eq_foldl, hus, hvs] at hstate
  exact foldl_ne_of_split absorbBlock_injective before behind (absorbBlock_ne hwidth hne) 0 hstate

/-! ## Mixers and scalars -/

/-- Whether the mixers are permutations of the words, and scalars that differ in one block have
different hashes. -/
structure TellsBlocksApart : Prop where
  scramble : Bijective scramble
  absorb_state : ∀ block, Bijective fun state => absorb state block
  absorb_block : ∀ state, Bijective (absorb state)
  finish : ∀ length, Bijective fun state => finish state length
  collection : ∀ count, Bijective fun combined => collection combined count
  ofInt32_injOn : Set.InjOn ofInt32 {x | x ≠ 0}
  ofInt32_zero : ∃! x : Int32, x ≠ 0 ∧ ofInt32 x = ofInt32 0
  ofInt64_ne : ∀ x y : Int64, x ≠ 0 → y ≠ 0 → x ≠ y →
    lowWord x = lowWord y ∨ highWord x = highWord y → ofInt64 x ≠ ofInt64 y
  /-- The strings have as many code units as each other, and one pair of units, or the odd last
  unit, differs. -/
  ofString_ne : ∀ s t : String, (Utf16.units s).length = (Utf16.units t).length →
    DifferOnce (blocks (Utf16.units s)) (blocks (Utf16.units t)) → ofString s ≠ ofString t

/-- **The mixers lose nothing, and tell scalars apart that differ in one block.** -/
theorem tellsBlocksApart : TellsBlocksApart where
  scramble := Finite.injective_iff_bijective.mp scramble_injective
  absorb_state block := Finite.injective_iff_bijective.mp (absorb_injective_state block)
  absorb_block state := Finite.injective_iff_bijective.mp (absorb_injective_block state)
  finish length := Finite.injective_iff_bijective.mp (finish_injective length)
  collection count := Finite.injective_iff_bijective.mp (collection_injective count)
  ofInt32_injOn := ofInt32_injOn
  ofInt32_zero := existsUnique_ofInt32_eq
  ofInt64_ne _ _ hx hy hne h := ofInt64_ne hx hy hne h
  ofString_ne _ _ hlen h := ofUnits_ne hlen h

/-- Two strings whose odd last units differ have different hashes. -/
theorem tellsBlocksApart_lastUnit :
    DifferOnce (blocks (Utf16.units "abc")) (blocks (Utf16.units "abd")) ∧
      ofString "abc" ≠ ofString "abd" := by
  have hc : Utf16.units "abc" = [0x61, 0x62, 0x63] := by decide
  have hd : Utf16.units "abd" = [0x61, 0x62, 0x64] := by decide
  have hdiffer : DifferOnce (blocks (Utf16.units "abc")) (blocks (Utf16.units "abd")) := by
    rw [hc, hd]
    exact differOnce_append_cons [(0x61, some 0x62)] [] (by decide)
  refine ⟨hdiffer, tellsBlocksApart.ofString_ne _ _ ?_ hdiffer⟩
  rw [hc, hd]
  rfl

end HashTrie.Murmur
