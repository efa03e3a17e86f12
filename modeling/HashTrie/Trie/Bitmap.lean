/-!
# Occupancy bitmaps

A set of slices, as a 32-bit word, together with the position of each slice among the set bits. The
position of slice `i` is the number of set bits below bit `i`, so a list with one element per set
bit, in the order of the bits, is indexed by slice.
-/

namespace HashTrie

/-- A set of slices: bit `i` is set when slice `i` is occupied. -/
abbrev Bitmap : Type := BitVec 32

namespace Bitmap

/-- The bitmap with no bit set. -/
def empty : Bitmap := 0

/-- The bitmap of one slice. -/
def single (i : Fin 32) : Bitmap := BitVec.twoPow 32 i

/-- Whether a slice is occupied. -/
def has (b : Bitmap) (i : Fin 32) : Bool := b.getLsbD i

/-- Occupy a slice. -/
def insert (b : Bitmap) (i : Fin 32) : Bitmap := b ||| single i

/-- Flip the bit of a slice, which frees it when it is occupied. -/
def toggle (b : Bitmap) (i : Fin 32) : Bitmap := b ^^^ single i

/-- The number of set bits. -/
def popCount (b : Bitmap) : Nat := b.cpopNatRec 32 0

/-- The position of a slice: the number of set bits below its own. -/
def rank (b : Bitmap) (i : Fin 32) : Nat := popCount (b &&& (single i - 1))

/-- The bitmap of a list of slices. -/
def ofSlices (is : List (Fin 32)) : Bitmap := is.foldr (fun i b => insert b i) empty

@[simp] theorem ofSlices_nil : ofSlices [] = empty := rfl

@[simp] theorem ofSlices_cons (i : Fin 32) (is : List (Fin 32)) :
    ofSlices (i :: is) = insert (ofSlices is) i := rfl

/-- A slice is occupied after an insertion when it is the inserted one or was occupied before. -/
theorem has_insert (b : Bitmap) (i j : Fin 32) :
    has (insert b i) j = (decide (i = j) || has b j) := by
  simp [has, insert, single, Bool.or_comm, Fin.ext_iff, eq_comm]

/-- Toggling a slice flips it and no other. -/
theorem has_toggle (b : Bitmap) (i j : Fin 32) :
    has (toggle b i) j = (has b j ^^ decide (i = j)) := by
  simp [has, toggle, single, Fin.ext_iff, eq_comm]

end Bitmap

end HashTrie
