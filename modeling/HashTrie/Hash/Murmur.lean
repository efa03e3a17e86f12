import HashTrie.Text.Utf16

/-!
# Murmur3 mixing

The 32-bit block mixer with seed zero, and the hashes made from it: of fixed-width integers, of
strings (over their UTF-16 code units, two units a block), and of collections, which first combine
the element hashes and then mix the result with the element count.
-/

namespace HashTrie.Murmur

/-- Rotation of a word to the left; the amount is between 1 and 31. -/
def rotateLeft (x amount : UInt32) : UInt32 :=
  (x <<< amount) ||| (x >>> (32 - amount))

/-- Scramble one block before it is folded into the running state. -/
def scramble (block : UInt32) : UInt32 :=
  rotateLeft (block * 0xcc9e2d51) 15 * 0x1b873593

/-- Fold a scrambled block into the running state. -/
def absorb (state block : UInt32) : UInt32 :=
  rotateLeft (state ^^^ block) 13 * 5 + 0xe6546b64

/-- The final avalanche: every bit of the state reaches every bit of the hash. -/
def avalanche (x : UInt32) : UInt32 :=
  let x := (x ^^^ (x >>> 16)) * 0x85ebca6b
  let x := (x ^^^ (x >>> 13)) * 0xc2b2ae35
  x ^^^ (x >>> 16)

/-- Finish a state with the input's length. -/
def finish (state length : UInt32) : UInt32 :=
  avalanche (state ^^^ length)

/-- The hash of a 32-bit integer; zero hashes to zero. -/
def ofInt32 (x : Int32) : UInt32 :=
  if x = 0 then 0 else finish (absorb 0 (scramble x.toUInt32)) 4

/-- The hash of a 64-bit integer, low word first; zero hashes to zero. -/
def ofInt64 (x : Int64) : UInt32 :=
  if x = 0 then 0
  else
    let bits := x.toUInt64
    finish (absorb (absorb 0 (scramble bits.toUInt32)) (scramble (bits >>> 32).toUInt32)) 8

/-- Two code units as one little-endian block. -/
def blockOfUnits (low high : UInt16) : UInt32 :=
  low.toUInt32 ||| (high.toUInt32 <<< 16)

/-- The state after a list of code units; an odd last unit is mixed in without the rotation. -/
def absorbUnits (state : UInt32) : List UInt16 → UInt32
  | low :: high :: rest => absorbUnits (absorb state (scramble (blockOfUnits low high))) rest
  | [last] => state ^^^ scramble last.toUInt32
  | [] => state

/-- The hash of a list of code units; its length counts bytes, modulo the word size. -/
def ofUnits (units : List UInt16) : UInt32 :=
  finish (absorbUnits 0 units) (UInt32.ofNat units.length * 2)

/-- The hash of a string over its UTF-16 code units. -/
def ofString (s : String) : UInt32 :=
  ofUnits (Utf16.units s)

/-- Mix a combined element hash with the number of elements. -/
def collection (combined count : UInt32) : UInt32 :=
  finish (absorb 0 (scramble combined)) count

/-- The base-31 polynomial of a list of element hashes, with leading coefficient one. -/
def orderedSum (hashes : List UInt32) : UInt32 :=
  hashes.foldl (fun sum h => sum * 31 + h) 1

/-- The wrapping sum of a list of element hashes. -/
def unorderedSum (hashes : List UInt32) : UInt32 :=
  hashes.foldl (· + ·) 0

/-- The hash of a sequence with these element hashes; it depends on their order. -/
def ordered (hashes : List UInt32) : UInt32 :=
  collection (orderedSum hashes) (UInt32.ofNat hashes.length)

/-- The hash of a collection with these element hashes, in any order. -/
def unordered (hashes : List UInt32) : UInt32 :=
  collection (unorderedSum hashes) (UInt32.ofNat hashes.length)

end HashTrie.Murmur
