/-!
# Hash slices

A trie looks at a 32-bit hash five bits at a time, least significant slice first. The place of a
node in the trie is its height: the number of slices that are still unread there. The root has
height 7 and reads the lowest five bits; at height 1 the two highest bits are read; at height 0
nothing is left to read, and all keys below have one hash.
-/

namespace HashTrie

/-- The height of a root: the number of slices in a hash. -/
def rootHeight : Nat := 7

/-- How far a hash is shifted to read the slice of a node at this height. -/
def shiftAt (height : Nat) : Nat := 5 * (rootHeight - height)

/-- The slice of a hash that a node at this height reads. -/
def sliceAt (height : Nat) (hash : UInt32) : Fin 32 :=
  ⟨(hash.toNat >>> shiftAt height) % 32, Nat.mod_lt _ (by decide)⟩

/-- All slices of a hash, in the order in which a trie reads them. -/
def slices (hash : UInt32) : List (Fin 32) :=
  [sliceAt 7 hash, sliceAt 6 hash, sliceAt 5 hash, sliceAt 4 hash, sliceAt 3 hash, sliceAt 2 hash,
    sliceAt 1 hash]

end HashTrie
