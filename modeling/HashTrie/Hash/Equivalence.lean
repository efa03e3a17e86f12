import HashTrie.Entry
import HashTrie.Hash.Murmur

/-!
# Hashing up to an equivalence

A map asks two things of its keys: a 32-bit hash, and a test for equivalence. The test need not be
reflexive, symmetric or transitive. The contract, `LawfulHashEquiv`, is that equivalent values have
the same hash; nothing here relies on it.

The instances say how scalars and compounds hash. All integer widths hash like the 64-bit integer
of the same value (unsigned 64-bit values by their bit pattern), absent values hash to zero and
present ones are transparent, lists hash in order, and an entry hashes like the list of its key and
its value.
-/

namespace HashTrie

/-- A 32-bit hash and a test for equivalence. -/
class HashEquiv (α : Type) where
  /-- The hash of a value. -/
  hash : α → UInt32
  /-- Whether the first value is equivalent to the second. -/
  equiv : α → α → Bool

export HashEquiv (equiv)

/-- The contract between the two: equivalent values have the same hash. -/
class LawfulHashEquiv (α : Type) [HashEquiv α] : Prop where
  hash_eq_of_equiv {a b : α} : equiv a b = true → HashEquiv.hash a = HashEquiv.hash b

/-- What a lookup knows of the key it looks for: its hash, and which stored keys it accepts. The
key may be of another type than the stored ones. -/
structure Probe (K : Type) where
  hash : UInt32
  accepts : K → Bool

/-- The probe for a key of the stored type. -/
def Probe.ofKey {K : Type} [HashEquiv K] (key : K) : Probe K :=
  ⟨HashEquiv.hash key, equiv key⟩

/-- A value behind a shared cell. Cells with the same name are one cell. -/
structure Shared (α : Type) where
  cell : Nat
  value : α

namespace HashEquiv

/-- Hash by a 64-bit integer, and be equivalent when equal. -/
@[reducible] def ofInteger {α : Type} [DecidableEq α] (toInt64 : α → Int64) : HashEquiv α :=
  ⟨fun x => Murmur.ofInt64 (toInt64 x), fun x y => decide (x = y)⟩

instance : HashEquiv Int8 := ofInteger Int8.toInt64
instance : HashEquiv Int16 := ofInteger Int16.toInt64
instance : HashEquiv Int32 := ofInteger Int32.toInt64
instance : HashEquiv Int64 := ofInteger id
instance : HashEquiv UInt8 := ofInteger fun x => x.toUInt64.toInt64
instance : HashEquiv UInt16 := ofInteger fun x => x.toUInt64.toInt64
instance : HashEquiv UInt32 := ofInteger fun x => x.toUInt64.toInt64
instance : HashEquiv UInt64 := ofInteger UInt64.toInt64

instance : HashEquiv Bool where
  hash b := if b then 1231 else 1237
  equiv a b := a == b

instance : HashEquiv Char where
  hash c := c.val
  equiv a b := a == b

instance : HashEquiv String where
  hash := Murmur.ofString
  equiv a b := a == b

instance : HashEquiv Unit where
  hash _ := 0
  equiv _ _ := true

instance {α : Type} [HashEquiv α] : HashEquiv (Option α) where
  hash
    | none => 0
    | some a => hash a
  equiv
    | none, none => true
    | some a, some b => equiv a b
    | _, _ => false

/-- Lists are equivalent when they are as long and equivalent place by place. -/
def equivList {α : Type} [HashEquiv α] : List α → List α → Bool
  | [], [] => true
  | a :: as, b :: bs => equiv a b && equivList as bs
  | _, _ => false

instance {α : Type} [HashEquiv α] : HashEquiv (List α) where
  hash as := Murmur.ordered (as.map hash)
  equiv := equivList

instance {K V : Type} [HashEquiv K] [HashEquiv V] : HashEquiv (Entry K V) where
  hash e := Murmur.ordered [hash e.key, hash e.value]
  equiv a b := equiv a.key b.key && equiv a.value b.value

/-- One cell is equivalent to itself, whatever it holds. -/
instance {α : Type} [HashEquiv α] : HashEquiv (Shared α) where
  hash s := hash s.value
  equiv a b := a.cell == b.cell || equiv a.value b.value

end HashEquiv

/-- Equality looks at the values only, never at the cells. -/
instance {α : Type} [BEq α] : BEq (Shared α) :=
  ⟨fun a b => a.value == b.value⟩

end HashTrie
