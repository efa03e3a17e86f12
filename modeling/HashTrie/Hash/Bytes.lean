import Mathlib.Algebra.Group.Int.Defs
import Mathlib.Algebra.Group.Nat.Defs

/-!
# The byte-wise hash

MurmurHash3 with words of 32 bits, in plain arithmetic, on any list of bytes and with any seed. Four
bytes make a little-endian block. The last one to three bytes are mixed in without the rotation of
the state, and the number of bytes is mixed in at the end.

Strings become bytes by the little-endian form of UTF-16, where a character outside the basic plane
has two surrogates, and integers by their little-endian two's complement.
-/

namespace HashTrie.Bytes

/-! ## Words as bytes -/

/-- The number of a list of bytes, the first one counting least. -/
def littleEndian : List UInt8 → Nat
  | [] => 0
  | b :: bs => b.toNat + 256 * littleEndian bs

/-- The lowest bytes of a number, the one that counts least first. -/
def ofNat : Nat → Nat → List UInt8
  | 0, _ => []
  | width + 1, n => UInt8.ofNat (n % 256) :: ofNat width (n / 256)

/-- The bytes of an integer in two's complement. -/
def ofInt (width : Nat) (x : Int) : List UInt8 := ofNat width (x % 256 ^ width).toNat

/-- The bytes of a character in UTF-16: one unit, or a high surrogate and a low one. -/
def ofChar (c : Char) : List UInt8 :=
  if c.toNat < 0x10000 then ofNat 2 c.toNat
  else
    ofNat 2 (0xd800 + (c.toNat - 0x10000) / 0x400) ++
      ofNat 2 (0xdc00 + (c.toNat - 0x10000) % 0x400)

/-- The bytes of a string in UTF-16. -/
def ofString (s : String) : List UInt8 := s.toList.flatMap ofChar

/-! ## Mixing -/

/-- Rotate a word to the left: its top binary digits come round. -/
def rotate (amount x : Nat) : Nat := x * 2 ^ amount % 2 ^ 32 + x / 2 ^ (32 - amount)

/-- Scramble one block before it is mixed into the state. -/
def scramble (block : Nat) : Nat :=
  rotate 15 (block * 0xcc9e2d51 % 2 ^ 32) * 0x1b873593 % 2 ^ 32

/-- Mix a scrambled block into the state. -/
def absorb (state block : Nat) : Nat :=
  (rotate 13 (state ^^^ block) * 5 + 0xe6546b64) % 2 ^ 32

/-- The finalizer. -/
def finalize (state : Nat) : Nat :=
  let state := (state ^^^ (state / 2 ^ 16)) * 0x85ebca6b % 2 ^ 32
  let state := (state ^^^ (state / 2 ^ 13)) * 0xc2b2ae35 % 2 ^ 32
  state ^^^ (state / 2 ^ 16)

/-- The blocks of four bytes, and the tail of up to three bytes behind them. -/
def split : List UInt8 → List (List UInt8) × List UInt8
  | a :: b :: c :: d :: rest => ([a, b, c, d] :: (split rest).1, (split rest).2)
  | tail => ([], tail)

/-- Mix the tail into the state, if there is one. -/
def absorbTail (state : Nat) (tail : List UInt8) : Nat :=
  if tail.isEmpty then state else state ^^^ scramble (littleEndian tail)

/-- The state after all bytes. -/
def absorbAll (state : Nat) (bytes : List UInt8) : Nat :=
  absorbTail
    ((split bytes).1.foldl (fun state block => absorb state (scramble (littleEndian block))) state)
    (split bytes).2

/-- The hash of a list of bytes. -/
def hash (seed : Nat) (bytes : List UInt8) : Nat :=
  finalize (absorbAll seed bytes ^^^ (bytes.length % 2 ^ 32))

example : hash 0 (ofString "abc") = 1118836419 := by decide

end HashTrie.Bytes
