import HashTrie.Json.Reader
import HashTrie.Json.Tree
import Mathlib.Tactic.SplitIfs

/-!
# Scalars are read as they were written

A string is written with some of its characters escaped, each in one way, and the reader takes every
escape back (`Reader.stringTail_flatMap`). An integer of 64 bits is written by its digits; the
reader takes all of them, finds no fraction and no exponent behind them, and the number fits
(`Reader.integer_toString`). A number ends where something else begins, so what stands behind it
must not go on with it (`Closes`).
-/

namespace HashTrie.Json

/-! ## Strings -/

theorem hexValue?_hexDigit (n : Nat) : Reader.hexValue? (hexDigit n) = some (n % 16) := by
  have h : ∀ k < 16, Reader.hexValue? (Nat.digitChar k) = some k := by decide
  exact h (n % 16) (Nat.mod_lt n (by decide))

namespace Reader

theorem readHex_cons (a b c d : Char) (s : List Char) {i j k l : Nat} (ha : hexValue? a = some i)
    (hb : hexValue? b = some j) (hc : hexValue? c = some k) (hd : hexValue? d = some l) :
    readHex (a :: b :: c :: d :: s) = .ok (((i * 16 + j) * 16 + k) * 16 + l) := by
  have hsize : ¬ (String.ofList (a :: b :: c :: d :: s)).utf8ByteSize < 4 := by
    have ha := a.utf8Size_pos
    have hb := b.utf8Size_pos
    have hc := c.utf8Size_pos
    have hd := d.utf8Size_pos
    simp only [String.ofList_cons, String.utf8ByteSize_append, String.utf8ByteSize_singleton]
    omega
  rw [readHex, if_neg hsize]
  simp only [ha, hb, hc, hd]

/-- A control character is written by its code unit. -/
theorem readEscape_unit {c : Char} (hc : c.toNat < 0x20) (s : List Char) :
    readEscape ('u' :: '0' :: '0' :: hexDigit (c.toNat / 16) :: hexDigit c.toNat :: s) =
      .ok (c, 5) := by
  have hzero : hexValue? '0' = some 0 := by decide
  have hunit : ((0 * 16 + 0) * 16 + c.toNat / 16 % 16) * 16 + c.toNat % 16 = c.toNat := by omega
  have hread : readUnitEscape ('0' :: '0' :: hexDigit (c.toNat / 16) :: hexDigit c.toNat :: s) =
      .ok (c, 4) := by
    rw [readUnitEscape, readHex_cons _ _ _ _ s hzero hzero (hexValue?_hexDigit _)
      (hexValue?_hexDigit _), hunit]
    show (if c.toNat < 0xd800 ∨ 0xdfff < c.toNat then _ else _) = _
    rw [if_pos (.inl (by omega)), Char.ofNat_toNat]
  rw [readEscape, hread]
  rfl

theorem stringChars_backslash {s : List Char} {c : Char} {taken : Nat}
    (h : readEscape s = .ok (c, taken)) :
    stringChars ('\\' :: s) = (stringChars (s.drop taken)).map fun (cs, s) => (c :: cs, s) := by
  rw [stringChars, if_neg (by decide), if_pos rfl, h]

theorem stringChars_letter {letter c : Char} (h : ∀ s, readEscape (letter :: s) = .ok (c, 1))
    (s : List Char) :
    stringChars (['\\', letter] ++ s) = (stringChars s).map fun (cs, s) => (c :: cs, s) :=
  stringChars_backslash (h s)

/-- A written character is read. -/
theorem stringChars_escapeChar (c : Char) (s : List Char) :
    stringChars (escapeChar c ++ s) = (stringChars s).map fun (cs, s) => (c :: cs, s) := by
  unfold escapeChar
  split_ifs with hquote hslash hn hr ht hb hf hcontrol
  · subst hquote
    exact stringChars_letter (fun _ => rfl) s
  · subst hslash
    exact stringChars_letter (fun _ => rfl) s
  · subst hn
    exact stringChars_letter (fun _ => rfl) s
  · subst hr
    exact stringChars_letter (fun _ => rfl) s
  · subst ht
    exact stringChars_letter (fun _ => rfl) s
  · obtain rfl : c = '\x08' := Char.toNat_inj.mp hb
    exact stringChars_letter (fun _ => rfl) s
  · obtain rfl : c = '\x0c' := Char.toNat_inj.mp hf
    exact stringChars_letter (fun _ => rfl) s
  · exact stringChars_backslash (readEscape_unit hcontrol s)
  · rw [List.singleton_append, stringChars, if_neg hquote, if_neg hslash, if_neg hcontrol]

/-- **A string is read as it was written.** -/
theorem stringChars_flatMap (cs s : List Char) :
    stringChars (cs.flatMap escapeChar ++ '"' :: s) = .ok (cs, s) := by
  induction cs with
  | nil => rw [List.flatMap_nil, List.nil_append, stringChars, if_pos rfl]
  | cons c cs ih =>
    rw [List.flatMap_cons, List.append_assoc, stringChars_escapeChar, ih]
    rfl


theorem stringTail_flatMap (s : String) (rest : List Char) :
    stringTail (s.toList.flatMap escapeChar ++ '"' :: rest) = .ok (s, rest) := by
  rw [stringTail, stringChars_flatMap]
  show Except.ok (String.ofList s.toList, rest) = _
  rw [String.ofList_toList]

end Reader

/-! ## What stands behind a value -/

/-- Whether a text may stand behind a value: it is over, or goes on with a mark that closes the
value. -/
def Closes (rest : List Char) : Prop :=
  ∀ c, rest.head? = some c → c = ',' ∨ c = ']' ∨ c = '}' ∨ c = '"'

theorem closes_cons {c : Char} (hc : c = ',' ∨ c = ']' ∨ c = '}' ∨ c = '"') (rest : List Char) :
    Closes (c :: rest) := by
  intro c' h
  obtain rfl := Option.some.inj h
  exact hc

theorem Closes.head?_ne {rest : List Char} (h : Closes rest) {c : Char}
    (hc : c ≠ ',' ∧ c ≠ ']' ∧ c ≠ '}' ∧ c ≠ '"') : rest.head? ≠ some c := by
  intro heq
  rcases h c heq with rfl | rfl | rfl | rfl <;> simp at hc

/-! ## Numbers -/

namespace Number

theorem splitDigits_append {digits rest : List Char} (hdigits : ∀ d ∈ digits, d.isDigit = true)
    (hrest : Closes rest) : splitDigits (digits ++ rest) = (digits, rest) := by
  have hnone : rest.takeWhile Char.isDigit = [] ∧ rest.dropWhile Char.isDigit = rest := by
    cases rest with
    | nil => exact ⟨rfl, rfl⟩
    | cons c rest =>
      have hc : c.isDigit = false := by rcases hrest c rfl with rfl | rfl | rfl | rfl <;> rfl
      exact ⟨List.takeWhile_cons_of_neg (by simp [hc]), List.dropWhile_cons_of_neg (by simp [hc])⟩
  rw [splitDigits, List.takeWhile_append_of_pos hdigits, List.dropWhile_append_of_pos hdigits,
    hnone.1, hnone.2, List.append_nil]

theorem le_ofDigitChars (digits : List Char) (n : Nat) : n ≤ Nat.ofDigitChars 10 digits n := by
  induction digits generalizing n with
  | nil => exact Nat.le_refl n
  | cons d digits ih =>
    rw [Nat.ofDigitChars_cons]
    have := ih (10 * n + (d.toNat - '0'.toNat))
    omega

/-- All digits of a number are taken when the number fits. -/
theorem takeDigits_eq {digits : List Char} {n : Nat}
    (h : Nat.ofDigitChars 10 digits n < UInt64.size) :
    takeDigits n digits = (Nat.ofDigitChars 10 digits n, digits.length) := by
  induction digits generalizing n with
  | nil => rfl
  | cons d digits ih =>
    rw [Nat.ofDigitChars_cons, Nat.mul_comm] at h
    have hnext := le_ofDigitChars digits (n * 10 + (d.toNat - '0'.toNat))
    rw [takeDigits]
    simp only [if_pos (Nat.lt_of_le_of_lt hnext h), ih h]
    rw [Nat.ofDigitChars_cons, Nat.mul_comm 10]
    rfl

theorem head?_toDigits {n : Nat} (hn : n ≠ 0) : (Nat.toDigits 10 n).head? ≠ some '0' := by
  induction n using Nat.strongRecOn with
  | ind n ih =>
    by_cases hlt : n < 10
    · rw [Nat.toDigits_of_lt_base hlt]
      have h : ∀ k < 10, k ≠ 0 → [k.digitChar].head? ≠ some '0' := by decide
      exact h n hlt hn
    · rw [Nat.toDigits_of_base_le (by decide) (by omega), List.head?_append]
      have hrec := ih (n / 10) (by omega) (by omega)
      cases hhead : (Nat.toDigits 10 (n / 10)).head? with
      | none => exact absurd (List.head?_eq_none_iff.mp hhead) Nat.toDigits_ne_nil
      | some d =>
        rw [hhead] at hrec
        simpa using hrec

theorem toDigits_ne_zero_cons (n : Nat) (c : Char) (cs : List Char) :
    Nat.toDigits 10 n ≠ '0' :: c :: cs := by
  intro h
  by_cases hn : n = 0
  · subst hn
    cases h
  · exact head?_toDigits hn (by rw [h]; rfl)

theorem readTail_toDigits {negative : Bool} {n : Nat} (hn : n < UInt64.size) {rest : List Char}
    (hrest : Closes rest) :
    readTail negative (Nat.toDigits 10 n) rest = .ok (ofInteger negative n, rest) := by
  have hvalue : Nat.ofDigitChars 10 (Nat.toDigits 10 n) 0 = n := Nat.ofDigitChars_ten_toDigits
  have hpoint : rest.head? ≠ some '.' := hrest.head?_ne (by decide)
  have he : rest.head? ≠ some 'e' := hrest.head?_ne (by decide)
  have hE : rest.head? ≠ some 'E' := hrest.head?_ne (by decide)
  unfold readTail
  rw [takeDigits_eq (by rwa [hvalue]), hvalue]
  simp only [Nat.sub_self]
  split
  · exact absurd rfl hpoint
  · rw [if_neg (by simp [he, hE])]

theorem readUnsigned_toDigits (negative : Bool) {n : Nat} (hn : n < UInt64.size)
    {rest : List Char} (hrest : Closes rest) :
    readUnsigned negative (Nat.toDigits 10 n ++ rest) = .ok (ofInteger negative n, rest) := by
  have hdigits : ∀ d ∈ Nat.toDigits 10 n, d.isDigit = true :=
    fun d hd => Nat.isDigit_of_mem_toDigits (by decide) (by decide) hd
  unfold readUnsigned
  rw [splitDigits_append hdigits hrest]
  split
  · next h => exact absurd (Prod.mk.inj h).1 Nat.toDigits_ne_nil
  · next h => exact absurd (Prod.mk.inj h).1 Nat.toDigits_ne_nil
  · next h => exact absurd (Prod.mk.inj h).1 (toDigits_ne_zero_cons n _ _)
  · next h =>
    obtain ⟨rfl, rfl⟩ := Prod.mk.inj h
    exact readTail_toDigits hn hrest

/-- A number without a sign begins with a digit, so no sign is taken. -/
theorem read_toDigits {n : Nat} (hn : n < UInt64.size) {rest : List Char} (hrest : Closes rest) :
    read (Nat.toDigits 10 n ++ rest) = .ok (.natural n, rest) := by
  have hread := readUnsigned_toDigits false hn hrest
  unfold read
  split
  · next heq =>
    cases hdigits : Nat.toDigits 10 n with
    | nil => exact absurd hdigits Nat.toDigits_ne_nil
    | cons d ds =>
      have hd : d.isDigit = true := Nat.isDigit_of_mem_toDigits (b := 10) (n := n) (by decide)
        (by decide) (by rw [hdigits]; exact List.mem_cons_self)
      rw [hdigits, List.cons_append] at heq
      obtain ⟨rfl, -⟩ := List.cons.inj heq
      exact absurd hd (by decide)
  · exact hread

theorem toList_toString_ofNat (n : Nat) :
    (toString (Int.ofNat n)).toList = Nat.toDigits 10 n := by
  rw [Int.toString_eq_repr, Int.repr, Nat.repr_eq_ofList_toDigits, String.toList_ofList]

theorem toList_toString_negSucc (n : Nat) :
    (toString (Int.negSucc n)).toList = '-' :: Nat.toDigits 10 (n + 1) := by
  rw [Int.toString_eq_repr, Int.repr, Nat.repr_eq_ofList_toDigits, String.toList_append]
  simp only [String.toList_ofList]
  rfl

/-- An integer is written with digits and a sign. -/
theorem isDigit_or_minus_of_mem {i : Int} {c : Char} (hc : c ∈ (toString i).toList) :
    (c.isDigit || c = '-') = true := by
  have hdigit : ∀ n, c ∈ Nat.toDigits 10 n → c.isDigit = true := fun n hn =>
    Nat.isDigit_of_mem_toDigits (by decide) (by decide) hn
  cases i with
  | ofNat n =>
    rw [toList_toString_ofNat] at hc
    simp [hdigit n hc]
  | negSucc n =>
    rw [toList_toString_negSucc] at hc
    rcases List.mem_cons.mp hc with rfl | hc
    · rfl
    · simp [hdigit _ hc]

theorem exists_toList_toString_eq_cons (i : Int) :
    ∃ c cs, (toString i).toList = c :: cs ∧ (c.isDigit || c = '-') = true := by
  cases h : (toString i).toList with
  | nil =>
    cases i with
    | ofNat n => exact absurd ((toList_toString_ofNat n).symm.trans h) Nat.toDigits_ne_nil
    | negSucc n => cases (toList_toString_negSucc n).symm.trans h
  | cons c cs =>
    exact ⟨c, cs, rfl, isDigit_or_minus_of_mem (i := i) (by rw [h]; exact List.mem_cons_self)⟩

/-- **An integer of 64 bits is read as it was written.** -/
theorem read_toString (i : Int64) {rest : List Char} (hrest : Closes rest) :
    ∃ n, read ((toString i.toInt).toList ++ rest) = .ok (n, rest) ∧ n.toInt64 = .ok i := by
  have hlt := i.toInt_lt
  have hle := i.le_toInt
  have hself := i.ofInt_toInt
  cases hi : i.toInt with
  | ofNat n =>
    rw [hi] at hlt hself
    have hn : n < Nat.pow 2 63 := Int.ofNat_lt.mp hlt
    have hsize : n < UInt64.size := Nat.lt_trans hn (by decide)
    refine ⟨.natural n, ?_, ?_⟩
    · rw [toList_toString_ofNat]
      exact read_toDigits hsize hrest
    · rw [toInt64, if_pos hn]
      exact congrArg Except.ok (Int64.ofInt_eq_ofNat.symm.trans hself)
  | negSucc n =>
    rw [hi] at hle hself
    have hn : n + 1 ≤ Nat.pow 2 63 := by
      have h63 : ((Nat.pow 2 63 : Nat) : Int) = 2 ^ 63 := by decide
      rw [Int.negSucc_eq] at hle
      omega
    have hsize : n + 1 < UInt64.size := Nat.lt_of_le_of_lt hn (by decide)
    refine ⟨.negative (Int.negSucc n), ?_, congrArg Except.ok hself⟩
    rw [toList_toString_negSucc, List.cons_append, read, readUnsigned_toDigits true hsize hrest,
      ofInteger, if_neg (by decide), if_neg (by omega)]
    rfl

end Number

/-! ## Readers of scalars -/

namespace Reader

theorem bind_of_ok {α β : Type} {reader : Reader α} {next : α → Reader β} {s s' : List Char}
    {a : α} (h : reader s = .ok (a, s')) : (reader >>= next) s = next a s' := by
  show (reader s).bind _ = _
  rw [h]
  rfl

theorem peekSolid_cons {c : Char} (hc : isBlank c = false) (s : List Char) :
    peekSolid (c :: s) = .ok (some c, c :: s) := by
  rw [peekSolid, List.dropWhile_cons_of_neg (by simp [hc])]
  rfl

theorem isBlank_of_isDigit {c : Char} (hc : (c.isDigit || c = '-') = true) :
    isBlank c = false := by
  refine Bool.eq_false_iff.mpr fun hblank => ?_
  simp only [isBlank, Bool.or_eq_true, decide_eq_true_eq] at hblank
  rcases hblank with ((rfl | rfl) | rfl) | rfl <;> simp at hc

/-- **A 64-bit integer is read as it was written.** -/
theorem integer_toString (i : Int64) {rest : List Char} (hrest : Closes rest) :
    integer ((toString i.toInt).toList ++ rest) = .ok (i, rest) := by
  obtain ⟨c, cs, hcs, hc⟩ := Number.exists_toList_toString_eq_cons i.toInt
  obtain ⟨n, hread, hn⟩ := Number.read_toString i hrest
  rw [hcs, List.cons_append] at *
  unfold integer
  rw [bind_of_ok (peekSolid_cons (isBlank_of_isDigit hc) _)]
  simp only [if_pos hc]
  have hnumber : (StateT.mk Number.read : Reader Number) (c :: (cs ++ rest)) = .ok (n, rest) :=
    hread
  rw [bind_of_ok hnumber, hn]
  rfl

/-- Digits and signs are written as they are. -/
theorem escapeChar_eq_singleton {c : Char} (hc : (c.isDigit || c = '-') = true) :
    escapeChar c = [c] := by
  have hrange : 45 ≤ c.toNat ∧ c.toNat ≤ 57 := by
    rw [Bool.or_eq_true, decide_eq_true_eq, Char.isDigit_iff_toNat] at hc
    rcases hc with hc | rfl
    · exact ⟨Nat.le_trans (by decide) hc.1, hc.2⟩
    · decide
  have hne : ∀ {d : Char}, d.toNat < 45 ∨ 57 < d.toNat → c ≠ d := by
    rintro d hd rfl
    omega
  unfold escapeChar
  rw [if_neg (hne (by decide)), if_neg (hne (by decide)), if_neg (hne (by decide)),
    if_neg (hne (by decide)), if_neg (hne (by decide)), if_neg (by omega), if_neg (by omega),
    if_neg (by omega)]

theorem flatMap_escapeChar_eq_self {cs : List Char}
    (hcs : ∀ c ∈ cs, (c.isDigit || c = '-') = true) : cs.flatMap escapeChar = cs := by
  induction cs with
  | nil => rfl
  | cons c cs ih =>
    obtain ⟨hc, hcs⟩ := List.forall_mem_cons.mp hcs
    rw [List.flatMap_cons, escapeChar_eq_singleton hc, ih hcs, List.singleton_append]

theorem quoteChars_toString (i : Int) :
    quoteChars (toString i).toList = '"' :: (toString i).toList ++ ['"'] := by
  rw [quoteChars, flatMap_escapeChar_eq_self fun c hc => Number.isDigit_or_minus_of_mem hc]

/-- A 64-bit integer in quotes is read as it was written. -/
theorem integerName_quoteChars (i : Int64) (rest : List Char) :
    integerName (quoteChars (toString i.toInt).toList ++ rest) = .ok (i, rest) := by
  have hread := integer_toString i (closes_cons (.inr (.inr (.inr rfl))) rest)
  obtain ⟨c, cs, hcs, hc⟩ := Number.exists_toList_toString_eq_cons i.toInt
  have hdrop : ∀ d s, drop (d :: s) = .ok ((), s) := fun _ _ => rfl
  have hpeek : ∀ d s, peek (d :: s) = .ok (some d, d :: s) := fun _ _ => rfl
  rw [hcs] at hread
  rw [quoteChars_toString, hcs]
  simp only [List.cons_append, List.append_assoc, List.nil_append] at hread ⊢
  unfold integerName
  rw [bind_of_ok (hdrop _ _), bind_of_ok (hpeek _ _)]
  simp only [if_pos hc]
  rw [bind_of_ok hread, bind_of_ok (hpeek _ _)]
  simp only []
  rw [bind_of_ok (hdrop _ _)]
  rfl

end Reader

end HashTrie.Json
