import HashTrie.Hash.Murmur
import Mathlib.Data.FinEnum

/-!
# The mixers lose nothing

Each step of the mixers is a permutation of the words: a rotation carries its top digits around
(`toNat_rotateLeft`), the exclusive or with a shifted word leaves its top digits alone, and the
factors are odd. So are the mixers made of them: the scrambling of a block, the absorption of a
block into a state, in either argument, the final avalanche, and what finishes a state with a length
or a sum with a count.

Hashes of lists fold such a step over the elements, so lists that differ at one place have different
hashes (`foldl_ne_of_split`).
-/

namespace HashTrie

open Function

namespace Murmur

/-! ## Steps -/

/-- A rotated word: the low digits move up, and the top ones come round. -/
theorem toNat_rotateLeft (x : UInt32) {k : UInt32} (hk : 0 < k.toNat) (hk' : k.toNat < 32) :
    (rotateLeft x k).toNat = x.toNat * 2 ^ k.toNat % 2 ^ 32 + x.toNat / 2 ^ (32 - k.toNat) := by
  have hsub : (32 - k).toNat = 32 - k.toNat :=
    UInt32.toNat_sub_of_le 32 k (UInt32.le_iff_toNat_le.mpr hk'.le)
  have hsplit : 2 ^ 32 = 2 ^ k.toNat * 2 ^ (32 - k.toNat) := by
    rw [← Nat.pow_add, Nat.add_sub_cancel' hk'.le]
  have htop : x.toNat / 2 ^ (32 - k.toNat) < 2 ^ k.toNat := by
    apply Nat.div_lt_of_lt_mul
    rw [Nat.mul_comm, ← hsplit]
    exact x.toNat_lt
  rw [rotateLeft, UInt32.toNat_or, UInt32.toNat_shiftLeft, UInt32.toNat_shiftRight, hsub,
    Nat.mod_eq_of_lt hk', Nat.mod_eq_of_lt (Nat.sub_lt (by decide) hk), Nat.shiftLeft_eq,
    Nat.shiftRight_eq_div_pow, Nat.mul_comm, hsplit, Nat.mul_mod_mul_left,
    Nat.two_pow_add_eq_or_of_lt htop]

theorem rotateLeft_injective {k : UInt32} (hk : 0 < k.toNat) (hk' : k.toNat < 32) :
    Injective fun x => rotateLeft x k := by
  intro x y hxy
  have hsplit : 2 ^ 32 = 2 ^ (32 - k.toNat) * 2 ^ k.toNat := by
    rw [← Nat.pow_add, Nat.sub_add_cancel hk'.le]
  have htop : ∀ z : UInt32, z.toNat / 2 ^ (32 - k.toNat) < 2 ^ k.toNat := fun z =>
    Nat.div_lt_of_lt_mul (hsplit ▸ z.toNat_lt)
  -- the two parts are quotient and remainder of the rotated word
  have hparts : ∀ z : UInt32, (rotateLeft z k).toNat / 2 ^ k.toNat = z.toNat % 2 ^ (32 - k.toNat) ∧
      (rotateLeft z k).toNat % 2 ^ k.toNat = z.toNat / 2 ^ (32 - k.toNat) := by
    intro z
    rw [toNat_rotateLeft z hk hk', hsplit, Nat.mul_mod_mul_right, Nat.add_comm]
    exact ⟨by rw [Nat.add_mul_div_right _ _ (Nat.two_pow_pos _), Nat.div_eq_of_lt (htop z),
      Nat.zero_add], by rw [Nat.add_mul_mod_self_right, Nat.mod_eq_of_lt (htop z)]⟩
  have hrotated : (rotateLeft x k).toNat = (rotateLeft y k).toNat := congrArg UInt32.toNat hxy
  apply UInt32.toNat_inj.mp
  rw [← Nat.div_add_mod x.toNat (2 ^ (32 - k.toNat)), ← (hparts x).1, ← (hparts x).2, hrotated,
    (hparts y).1, (hparts y).2, Nat.div_add_mod]

theorem xor_shiftRight_injective {k : UInt32} (hk : 0 < k.toNat % 32) :
    Injective fun x : UInt32 => x ^^^ (x >>> k) := by
  intro x y hxy
  -- the difference of the two is its own shift, and so zero
  have hdiff : (x ^^^ y) >>> k = x ^^^ y := by
    have hxy : x ^^^ (x >>> k) = y ^^^ (y >>> k) := hxy
    rw [UInt32.shiftRight_xor]
    calc x >>> k ^^^ y >>> k = x ^^^ (x ^^^ x >>> k) ^^^ y >>> k := by
          rw [← UInt32.xor_assoc x x, UInt32.xor_self, UInt32.zero_xor]
      _ = x ^^^ y := by rw [hxy, ← UInt32.xor_assoc, UInt32.xor_assoc, UInt32.xor_self,
          UInt32.xor_zero]
  have hzero : (x ^^^ y).toNat = 0 := by
    have hdiv := congrArg UInt32.toNat hdiff
    rw [UInt32.toNat_shiftRight, Nat.shiftRight_eq_div_pow] at hdiv
    by_contra hne
    exact absurd hdiv (Nat.div_lt_self (by omega) (Nat.one_lt_two_pow hk.ne')).ne
  exact UInt32.xor_eq_zero_iff.mp (UInt32.toNat_inj.mp hzero)

/-- Multiplication by a factor that has an inverse loses nothing. -/
theorem mul_injective {c d : UInt32} (h : c * d = 1) : Injective fun x : UInt32 => x * c := by
  intro x y hxy
  have hxy : x * c * d = y * c * d := congrArg (· * d) hxy
  rwa [UInt32.mul_assoc, UInt32.mul_assoc, h, UInt32.mul_one, UInt32.mul_one] at hxy

/-! ## Mixers -/

variable {state state' block block' : UInt32}

theorem scramble_injective : Injective scramble :=
  (mul_injective (d := 0x56ed309b) (by decide)).comp
    ((rotateLeft_injective (by decide) (by decide)).comp
      (mul_injective (d := 0xdee13bb1) (by decide)))

/-- Absorption depends on the exclusive or of state and block, and loses nothing of it. -/
theorem absorb_inj :
    absorb state block = absorb state' block' ↔ state ^^^ block = state' ^^^ block' := by
  refine ⟨fun h => ?_, fun h => by rw [absorb, absorb, h]⟩
  have hrotated := mul_injective (d := 0xcccccccd) (by decide) ((UInt32.add_left_inj _).mp h)
  exact rotateLeft_injective (by decide) (by decide) hrotated

theorem absorb_injective_state (block : UInt32) : Injective fun state => absorb state block :=
  fun _ _ h => (UInt32.xor_left_inj block).mp (absorb_inj.mp h)

theorem absorb_injective_block (state : UInt32) : Injective (absorb state) :=
  fun _ _ h => (UInt32.xor_right_inj state).mp (absorb_inj.mp h)

theorem avalanche_injective : Injective avalanche :=
  (xor_shiftRight_injective (k := 16) (by decide)).comp
    ((mul_injective (d := 0x7ed1b41d) (by decide)).comp
      ((xor_shiftRight_injective (k := 13) (by decide)).comp
        ((mul_injective (d := 0xa5cb9243) (by decide)).comp
          (xor_shiftRight_injective (k := 16) (by decide)))))

theorem finish_injective (length : UInt32) : Injective fun state => finish state length :=
  fun _ _ h => (UInt32.xor_left_inj length).mp (avalanche_injective h)

theorem collection_injective (count : UInt32) : Injective fun combined => collection combined count :=
  (finish_injective count).comp ((absorb_injective_block 0).comp scramble_injective)

end Murmur

/-! ## Lists that differ at one place -/

variable {α σ : Type} {as bs : List α} {a b : α}

/-- Whether two lists are as long as each other and differ at exactly one place. -/
def DifferOnce (as bs : List α) : Prop :=
  as.length = bs.length ∧ ∃! i : Nat, as[i]? ≠ bs[i]?

/-- Lists that differ at one place are the same before it and behind it. -/
theorem DifferOnce.exists_split (h : DifferOnce as bs) :
    ∃ before a b behind, a ≠ b ∧ as = before ++ a :: behind ∧ bs = before ++ b :: behind := by
  obtain ⟨hlen, i, hne, huniq⟩ := h
  have hsame : ∀ j, j ≠ i → as[j]? = bs[j]? := fun j hj => by
    by_contra hdiff
    exact hj (huniq j hdiff)
  have hi : i < as.length := by
    by_contra hi
    exact hne (by rw [List.getElem?_eq_none (by omega), List.getElem?_eq_none (by omega)])
  have hi' : i < bs.length := hlen ▸ hi
  have htake : bs.take i = as.take i := by
    refine List.ext_getElem? fun j => ?_
    rw [List.getElem?_take, List.getElem?_take]
    split
    · rw [hsame j (by omega)]
    · rfl
  have hdrop : bs.drop (i + 1) = as.drop (i + 1) := by
    refine List.ext_getElem? fun j => ?_
    rw [List.getElem?_drop, List.getElem?_drop, hsame (i + 1 + j) (by omega)]
  refine ⟨as.take i, as[i], bs[i], as.drop (i + 1), fun heq => hne ?_, ?_, ?_⟩
  · rw [List.getElem?_eq_getElem hi, List.getElem?_eq_getElem hi', heq]
  · rw [← List.drop_eq_getElem_cons hi, List.take_append_drop]
  · rw [← htake, ← hdrop, ← List.drop_eq_getElem_cons hi', List.take_append_drop]

/-- Lists that differ in one element differ once. -/
theorem differOnce_append_cons (before behind : List α) (hne : a ≠ b) :
    DifferOnce (before ++ a :: behind) (before ++ b :: behind) := by
  refine ⟨by simp, before.length, by simpa using hne, fun i hi => ?_⟩
  by_contra hother
  apply hi
  rcases Nat.lt_or_gt_of_ne hother with hlt | hgt
  · rw [List.getElem?_append_left hlt, List.getElem?_append_left hlt]
  · obtain ⟨n, rfl⟩ := Nat.exists_eq_add_of_lt hgt
    rw [List.getElem?_append_right (by omega), List.getElem?_append_right (by omega),
      show before.length + n + 1 - before.length = n + 1 by omega, List.getElem?_cons_succ,
      List.getElem?_cons_succ]

variable {f : σ → α → σ} (hf : ∀ a, Injective fun s => f s a)

include hf

theorem foldl_injective (as : List α) : Injective fun s => as.foldl f s := by
  induction as with
  | nil => exact injective_id
  | cons a as ih => exact ih.comp (hf a)

/-- **Where two elements lead from each state to different ones, so do lists that differ in them.**
-/
theorem foldl_ne_of_split (before behind : List α) (hab : ∀ s, f s a ≠ f s b) (s : σ) :
    (before ++ a :: behind).foldl f s ≠ (before ++ b :: behind).foldl f s := by
  rw [List.foldl_append, List.foldl_append]
  exact fun h => hab _ (foldl_injective hf behind h)

end HashTrie
