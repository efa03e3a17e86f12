import HashTrie.Hash.Bytes
import HashTrie.Proofs.Blocks

/-!
# Scalars hash byte by byte

The hashes of strings and integers are the byte-wise hash of their bytes, with seed zero
(`hashesBytes`). Words are numbers below `2 ^ 32`, and the mixers on words are the arithmetic ones:
a product and a sum are taken modulo `2 ^ 32`, a shift to the right is a division, and a rotation is
made of both. Two code units, or one word of an integer, make one block of four bytes; a last unit
that stands alone makes a tail of two bytes.
-/

namespace HashTrie

/-! ## Mixers -/

namespace Murmur

theorem toNat_scramble (block : UInt32) :
    (scramble block).toNat = Bytes.scramble block.toNat := by
  rw [scramble, UInt32.toNat_mul, toNat_rotateLeft _ (by decide) (by decide), UInt32.toNat_mul]
  rfl

theorem toNat_absorb (state block : UInt32) :
    (absorb state block).toNat = Bytes.absorb state.toNat block.toNat := by
  rw [absorb, UInt32.toNat_add, UInt32.toNat_mul, toNat_rotateLeft _ (by decide) (by decide),
    UInt32.toNat_xor, Nat.mod_add_mod]
  rfl

theorem toNat_xor_shiftRight (x k : UInt32) (hk : k.toNat < 32) :
    (x ^^^ (x >>> k)).toNat = x.toNat ^^^ (x.toNat / 2 ^ k.toNat) := by
  rw [UInt32.toNat_xor, UInt32.toNat_shiftRight, Nat.mod_eq_of_lt hk, Nat.shiftRight_eq_div_pow]

theorem toNat_finish (state length : UInt32) :
    (finish state length).toNat = Bytes.finalize (state.toNat ^^^ length.toNat) := by
  rw [finish, avalanche, toNat_xor_shiftRight _ _ (by decide), UInt32.toNat_mul,
    toNat_xor_shiftRight _ _ (by decide), UInt32.toNat_mul, toNat_xor_shiftRight _ _ (by decide),
    UInt32.toNat_xor]
  rfl

end Murmur

/-! ## Bytes of words -/

namespace Bytes

theorem littleEndian_ofNat (width n : Nat) : littleEndian (ofNat width n) = n % 256 ^ width := by
  induction width generalizing n with
  | zero => simp [ofNat, littleEndian, Nat.mod_one]
  | succ width ih =>
    have hbyte : (UInt8.ofNat (n % 256)).toNat = n % 256 := UInt8.toNat_ofNat_of_lt' (by
      exact Nat.mod_lt n (by decide))
    rw [ofNat, littleEndian, ih, hbyte, Nat.pow_succ, Nat.mul_comm (256 ^ width), Nat.mod_mul]

theorem length_ofNat (width n : Nat) : (ofNat width n).length = width := by
  induction width generalizing n with
  | zero => rfl
  | succ width ih => rw [ofNat, List.length_cons, ih]

theorem littleEndian_append (as bs : List UInt8) :
    littleEndian (as ++ bs) = littleEndian as + 256 ^ as.length * littleEndian bs := by
  induction as with
  | nil => simp [littleEndian]
  | cons a as ih =>
    rw [List.cons_append, littleEndian, littleEndian, ih, List.length_cons, Nat.pow_succ,
      Nat.mul_add, Nat.add_assoc, Nat.mul_assoc, Nat.mul_left_comm]

@[simp] theorem absorbAll_nil (state : Nat) : absorbAll state [] = state := rfl

/-- Four bytes are one block. -/
theorem absorbAll_append (state : Nat) {bytes : List UInt8} (hlen : bytes.length = 4)
    (rest : List UInt8) :
    absorbAll state (bytes ++ rest) =
      absorbAll (absorb state (scramble (littleEndian bytes))) rest := by
  match bytes, hlen with
  | [a, b, c, d], _ =>
    have hsplit : split ([a, b, c, d] ++ rest) = ([a, b, c, d] :: (split rest).1, (split rest).2) :=
      rfl
    rw [absorbAll, absorbAll, hsplit, List.foldl_cons]

/-- Two bytes are a tail. -/
theorem absorbAll_of_length_eq_two (state : Nat) {bytes : List UInt8} (hlen : bytes.length = 2) :
    absorbAll state bytes = state ^^^ scramble (littleEndian bytes) := by
  match bytes, hlen with
  | [a, b], _ =>
    have hsplit : split [a, b] = ([], [a, b]) := rfl
    rw [absorbAll, hsplit, List.foldl_nil]
    rfl

/-! ## Integers -/

theorem absorbAll_word (state : Nat) (w : UInt32) (rest : List UInt8) :
    absorbAll state (ofNat 4 w.toNat ++ rest) =
      absorbAll (absorb state (scramble w.toNat)) rest := by
  rw [absorbAll_append state (length_ofNat 4 _), littleEndian_ofNat]
  congr 3
  exact Nat.mod_eq_of_lt w.toNat_lt

theorem ofNat_mod (width n : Nat) : ofNat width (n % 256 ^ width) = ofNat width n := by
  induction width generalizing n with
  | zero => rfl
  | succ width ih =>
    rw [ofNat, ofNat, Nat.pow_succ, Nat.mul_comm (256 ^ width), Nat.mod_mul_right_div_self, ih,
      Nat.mod_mul_right_mod]

theorem ofNat_add (width width' n : Nat) :
    ofNat (width + width') n = ofNat width n ++ ofNat width' (n / 256 ^ width) := by
  induction width generalizing n with
  | zero => simp [ofNat]
  | succ width ih =>
    rw [Nat.succ_add, ofNat, ofNat, ih, List.cons_append, Nat.div_div_eq_div_mul, Nat.pow_succ,
      Nat.mul_comm (256 ^ width)]

/-- The number of a two's complement. -/
theorem toNat_toInt_emod {width : Nat} (x : BitVec width) :
    (x.toInt % (2 ^ width : Nat)).toNat = x.toNat := by
  rw [BitVec.toInt_eq_toNat_bmod, Int.bmod_emod, ← Int.natCast_mod, Int.toNat_natCast,
    Nat.mod_eq_of_lt x.isLt]

theorem ofInt_int32 (x : Int32) : ofInt 4 x.toInt = ofNat 4 x.toUInt32.toNat :=
  congrArg (ofNat 4) (toNat_toInt_emod x.toBitVec)

theorem ofInt_int64 (x : Int64) :
    ofInt 8 x.toInt = ofNat 4 (Murmur.lowWord x).toNat ++ ofNat 4 (Murmur.highWord x).toNat := by
  have hnumber : ofInt 8 x.toInt = ofNat (4 + 4) x.toUInt64.toNat :=
    congrArg (ofNat 8) (toNat_toInt_emod x.toBitVec)
  rw [hnumber, ofNat_add, Murmur.toNat_lowWord, Murmur.toNat_highWord]
  exact congrArg (· ++ _) (ofNat_mod 4 _).symm

theorem hash_int32 {x : Int32} (hx : x ≠ 0) :
    (Murmur.ofInt32 x).toNat = hash 0 (ofInt 4 x.toInt) := by
  have hbytes := absorbAll_word 0 x.toUInt32 []
  rw [List.append_nil, absorbAll_nil] at hbytes
  rw [Murmur.ofInt32_of_ne_zero hx, Murmur.collection, Murmur.toNat_finish, Murmur.toNat_absorb,
    Murmur.toNat_scramble, hash, ofInt_int32, hbytes, length_ofNat]
  rfl

theorem hash_int64 {x : Int64} (hx : x ≠ 0) :
    (Murmur.ofInt64 x).toNat = hash 0 (ofInt 8 x.toInt) := by
  have hbytes := absorbAll_word (absorb 0 (scramble (Murmur.lowWord x).toNat)) (Murmur.highWord x) []
  rw [List.append_nil, absorbAll_nil] at hbytes
  rw [Murmur.ofInt64_of_ne_zero hx, Murmur.toNat_finish, Murmur.toNat_absorb, Murmur.toNat_absorb,
    Murmur.toNat_scramble, Murmur.toNat_scramble, hash, ofInt_int64, absorbAll_word, hbytes,
    List.length_append, length_ofNat, length_ofNat]
  rfl

/-! ## Strings -/

/-- The bytes of a list of code units. -/
def ofUnits (units : List UInt16) : List UInt8 := units.flatMap fun unit => ofNat 2 unit.toNat

/-- A character outside the basic plane has a number of 20 binary digits behind `0x10000`. -/
theorem toNat_sub_plane {c : Char} (hc : 0x10000 ≤ c.toNat) :
    (c.val - 0x10000).toNat = c.toNat - 0x10000 ∧ c.toNat - 0x10000 < 0x400 * 0x400 := by
  have hvalid : c.toNat < 0x110000 := by
    rcases c.valid with h | h
    · exact Nat.lt_trans h (by decide)
    · exact h.2
  exact ⟨UInt32.toNat_sub_of_le _ _ (UInt32.le_iff_toNat_le.mpr hc), by omega⟩

theorem toNat_highSurrogate {c : Char} (hc : 0x10000 ≤ c.toNat) :
    (Utf16.highSurrogate c.val).toNat = 0xd800 + (c.toNat - 0x10000) / 0x400 := by
  obtain ⟨hsub, hlt⟩ := toNat_sub_plane hc
  rw [Utf16.highSurrogate, UInt16.toNat_add, UInt32.toNat_toUInt16, UInt32.toNat_shiftRight, hsub]
  show (0xd800 + (c.toNat - 0x10000) >>> 10 % 2 ^ 16) % 2 ^ 16 = _
  rw [Nat.shiftRight_eq_div_pow]
  omega

theorem toNat_lowSurrogate {c : Char} (hc : 0x10000 ≤ c.toNat) :
    (Utf16.lowSurrogate c.val).toNat = 0xdc00 + (c.toNat - 0x10000) % 0x400 := by
  obtain ⟨hsub, hlt⟩ := toNat_sub_plane hc
  rw [Utf16.lowSurrogate, UInt16.toNat_add, UInt32.toNat_toUInt16, UInt32.toNat_and, hsub]
  show (0xdc00 + ((c.toNat - 0x10000) &&& (2 ^ 10 - 1)) % 2 ^ 16) % 2 ^ 16 = _
  rw [Nat.and_two_pow_sub_one_eq_mod]
  omega

/-- The bytes of a character are those of its code units. -/
theorem ofUnits_unitsOfChar (c : Char) : ofUnits (Utf16.unitsOfChar c) = ofChar c := by
  have hplane : c.val < 0x10000 ↔ c.toNat < 0x10000 := UInt32.lt_iff_toNat_lt
  unfold Utf16.unitsOfChar ofChar
  by_cases hc : c.toNat < 0x10000
  · rw [if_pos hc, if_pos (hplane.mpr hc)]
    have hunit : c.val.toUInt16.toNat = c.toNat := by
      rw [UInt32.toNat_toUInt16]
      exact Nat.mod_eq_of_lt hc
    rw [ofUnits, List.flatMap_singleton, hunit]
  · rw [if_neg hc, if_neg (mt hplane.mp hc), ofUnits, List.flatMap_cons, List.flatMap_singleton,
      toNat_highSurrogate (not_lt.mp hc), toNat_lowSurrogate (not_lt.mp hc)]

theorem ofUnits_units (s : String) : ofUnits (Utf16.units s) = ofString s := by
  rw [ofUnits, Utf16.units, Utf16.unitsOfChars, List.flatMap_assoc, ofString]
  exact List.flatMap_congr fun c _ => ofUnits_unitsOfChar c

theorem length_ofUnits (units : List UInt16) : (ofUnits units).length = units.length * 2 := by
  simp [ofUnits, List.length_flatMap, length_ofNat]

/-- Two code units are one block, and one that stands alone is a tail. -/
theorem toNat_absorbUnits (state : UInt32) (units : List UInt16) :
    (Murmur.absorbUnits state units).toNat = absorbAll state.toNat (ofUnits units) := by
  fun_induction Murmur.absorbUnits state units with
  | case1 state low high rest ih =>
    have hblock : littleEndian (ofNat 2 low.toNat ++ ofNat 2 high.toNat) =
        (Murmur.blockOfUnits low high).toNat := by
      have hlow := low.toNat_lt
      have hhigh := high.toNat_lt
      rw [littleEndian_append, littleEndian_ofNat, littleEndian_ofNat, length_ofNat,
        Murmur.toNat_blockOfUnits]
      omega
    have hbytes : ofUnits (low :: high :: rest) =
        (ofNat 2 low.toNat ++ ofNat 2 high.toNat) ++ ofUnits rest := by
      rw [ofUnits, List.flatMap_cons, List.flatMap_cons, List.append_assoc, ofUnits]
    rw [ih, hbytes, absorbAll_append _ (by simp [length_ofNat]), hblock, Murmur.toNat_absorb,
      Murmur.toNat_scramble]
  | case2 state last =>
    have hunit : littleEndian (ofNat 2 last.toNat) = last.toUInt32.toNat := by
      rw [littleEndian_ofNat, UInt16.toNat_toUInt32]
      exact Nat.mod_eq_of_lt last.toNat_lt
    rw [ofUnits, List.flatMap_singleton, absorbAll_of_length_eq_two _ (length_ofNat 2 _), hunit,
      UInt32.toNat_xor, Murmur.toNat_scramble]
  | case3 => rfl

theorem hash_string (s : String) : (Murmur.ofString s).toNat = hash 0 (ofString s) := by
  have hlength : (UInt32.ofNat (Utf16.units s).length * 2).toNat =
      (Utf16.units s).length * 2 % 2 ^ 32 := by
    rw [UInt32.toNat_mul, UInt32.toNat_ofNat', Nat.mod_mul_mod]
    rfl
  rw [Murmur.ofString, Murmur.ofUnits, Murmur.toNat_finish, toNat_absorbUnits, hlength, hash,
    ← ofUnits_units, length_ofUnits]
  rfl

end Bytes

/-- **Scalars hash as their bytes do.** Strings are taken as UTF-16 and integers in two's complement,
both with the low byte first, and the seed is zero. The integer zero is not mixed. -/
theorem hashesBytes :
    (∀ s : String, (Murmur.ofString s).toNat = Bytes.hash 0 (Bytes.ofString s)) ∧
      (∀ x : Int32, x ≠ 0 → (Murmur.ofInt32 x).toNat = Bytes.hash 0 (Bytes.ofInt 4 x.toInt)) ∧
      (∀ x : Int64, x ≠ 0 → (Murmur.ofInt64 x).toNat = Bytes.hash 0 (Bytes.ofInt 8 x.toInt)) ∧
      Murmur.ofInt32 0 = 0 ∧ Murmur.ofInt64 0 = 0 :=
  ⟨Bytes.hash_string, fun _ => Bytes.hash_int32, fun _ => Bytes.hash_int64, rfl, rfl⟩

/-- A pair of surrogates, and the two words of a negative integer. -/
theorem hashesBytes_surrogates :
    (Murmur.ofString "𝄞a").toNat = Bytes.hash 0 [0x34, 0xd8, 0x1e, 0xdd, 0x61, 0] ∧
      (-2 : Int64) ≠ 0 ∧
      (Murmur.ofInt64 (-2)).toNat =
        Bytes.hash 0 [0xfe, 0xff, 0xff, 0xff, 0xff, 0xff, 0xff, 0xff] := by
  obtain ⟨hstring, -, hint, -, -⟩ := hashesBytes
  have hne : (-2 : Int64) ≠ 0 := by decide
  exact ⟨hstring "𝄞a", hne, hint (-2) hne⟩

end HashTrie
