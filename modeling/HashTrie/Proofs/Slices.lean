import HashTrie.Dictionary

/-!
# Hashes by their slices

A trie tells two hashes apart at the first height where their slices differ. `Agree h a b` says that
no slice above height `h` does, so the two hashes lead to one node at that height; at height 0 they
are then one hash (`eq_of_agree_zero`), and this is what bounds the depth of a trie. The slices at
and below a height order hashes lexicographically (`slicesBelow`). At the root this is the order of
all slices, and it is a linear order on hashes.
-/

namespace HashTrie

/-! ## Agreement above a height -/

/-- Whether two hashes have the same slices above a height. -/
def Agree (height : Nat) (a b : UInt32) : Prop :=
  ∀ k, height < k → k ≤ rootHeight → sliceAt k a = sliceAt k b

theorem agree_root (a b : UInt32) : Agree rootHeight a b := fun _ h h' => absurd h (by omega)

/-- Hashes that agree above a height and at it agree above the next one. -/
theorem Agree.step {height : Nat} {a b : UInt32} (h : Agree (height + 1) a b)
    (hs : sliceAt (height + 1) a = sliceAt (height + 1) b) : Agree height a b := by
  intro k hk hk'
  rcases Nat.lt_or_eq_of_le hk with hk | rfl
  · exact h k hk hk'
  · exact hs

theorem sliceAt_one_lt (a : UInt32) : sliceAt 1 a < 4 := by
  have ha : a.toNat < 2 ^ 32 := a.toNat_lt
  show (a.toNat >>> 30) % 32 < 4
  rw [Nat.shiftRight_eq_div_pow]
  omega

/-- A bit of a hash is a bit of one of its slices. -/
theorem testBit_eq_testBit_sliceAt (a : UInt32) {n : Nat} (hn : n < 32) :
    a.toNat.testBit n = (sliceAt (rootHeight - n / 5) a).val.testBit (n % 5) := by
  have hshift : shiftAt (rootHeight - n / 5) + n % 5 = n := by
    simp only [shiftAt, rootHeight]
    omega
  simp only [sliceAt]
  rw [show (32 : Nat) = 2 ^ 5 from rfl, Nat.testBit_mod_two_pow, Nat.testBit_shiftRight, hshift]
  simp [Nat.mod_lt]

/-- **Hashes that agree in every slice are equal.** -/
theorem eq_of_agree_zero {a b : UInt32} (h : Agree 0 a b) : a = b := by
  apply UInt32.toNat_inj.mp
  apply Nat.eq_of_testBit_eq
  intro n
  rcases Nat.lt_or_ge n 32 with hn | hn
  · rw [testBit_eq_testBit_sliceAt a hn, testBit_eq_testBit_sliceAt b hn,
      h (rootHeight - n / 5) (by simp only [rootHeight]; omega) (by omega)]
  · have hle : 2 ^ 32 ≤ 2 ^ n := Nat.pow_le_pow_right (by omega) hn
    rw [Nat.testBit_lt_two_pow (lt_of_lt_of_le a.toNat_lt hle),
      Nat.testBit_lt_two_pow (lt_of_lt_of_le b.toNat_lt hle)]

/-! ## The order of the slices -/

/-- The slices of a hash at and below a height, in the order in which a trie reads them. -/
def slicesBelow : Nat → UInt32 → List (Fin 32)
  | 0, _ => []
  | h + 1, hash => sliceAt (h + 1) hash :: slicesBelow h hash

theorem slicesBelow_succ_lt_iff {h : Nat} {a b : UInt32} :
    slicesBelow (h + 1) a < slicesBelow (h + 1) b ↔
      sliceAt (h + 1) a < sliceAt (h + 1) b ∨
        sliceAt (h + 1) a = sliceAt (h + 1) b ∧ slicesBelow h a < slicesBelow h b :=
  List.cons_lt_cons_iff

theorem slicesBelow_succ_le {h : Nat} {a b : UInt32}
    (hs : sliceAt (h + 1) a = sliceAt (h + 1) b) (hab : slicesBelow h a ≤ slicesBelow h b) :
    slicesBelow (h + 1) a ≤ slicesBelow (h + 1) b := by
  refine not_lt.mp fun hlt => ?_
  rcases slicesBelow_succ_lt_iff.mp hlt with hlt | ⟨-, hlt⟩
  · exact absurd hs.symm (ne_of_lt hlt)
  · exact absurd hab (not_le.mpr hlt)

/-- Hashes that agree above a height and have the same slices from there on are equal. -/
theorem eq_of_slicesBelow_eq {h : Nat} {a b : UInt32} (hab : Agree h a b)
    (hs : slicesBelow h a = slicesBelow h b) : a = b := by
  induction h with
  | zero => exact eq_of_agree_zero hab
  | succ h ih =>
    obtain ⟨hslice, htail⟩ := List.cons.inj hs
    exact ih (hab.step hslice) htail

theorem slices_injective : Function.Injective slices := fun a b h =>
  eq_of_slicesBelow_eq (agree_root a b) h

end HashTrie
