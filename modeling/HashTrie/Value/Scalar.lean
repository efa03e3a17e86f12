import HashTrie.Hash.Equivalence

/-!
# Scalars

The values without parts, each of a kind of its own: values of different kinds are neither
equivalent nor equal, even when they have the same hash. Three kinds exist to exercise maps. A
pinned value carries its hash and is equivalent to every pinned value of its name. An unequal value
is equivalent to the same number and equal to nothing. A lonely value is not even equivalent to
itself.
-/

namespace HashTrie

/-- A value without parts. -/
inductive Scalar where
  | nil
  | boolean (b : Bool)
  | integer (n : Int64)
  | text (s : String)
  | char (c : Char)
  | int8 (n : Int8)
  | int16 (n : Int16)
  | int32 (n : Int32)
  | uint8 (n : UInt8)
  | uint16 (n : UInt16)
  | uint32 (n : UInt32)
  | uint64 (n : UInt64)
  | signedWord (n : Int64)
  | unsignedWord (n : UInt64)
  | pinned (name : Int64) (hash : UInt32) (tag : Int64)
  | unequal (n : Int64)
  | lonely (n : Int64)

namespace Scalar

/-- Whether two values are of one ordinary kind and the same. -/
def same : Scalar → Scalar → Bool
  | nil, nil => true
  | boolean a, boolean b => a == b
  | integer a, integer b => a == b
  | text a, text b => a == b
  | char a, char b => a == b
  | int8 a, int8 b => a == b
  | int16 a, int16 b => a == b
  | int32 a, int32 b => a == b
  | uint8 a, uint8 b => a == b
  | uint16 a, uint16 b => a == b
  | uint32 a, uint32 b => a == b
  | uint64 a, uint64 b => a == b
  | signedWord a, signedWord b => a == b
  | unsignedWord a, unsignedWord b => a == b
  | _, _ => false

/-- Pinned values are equal when name, hash and tag are. -/
instance : BEq Scalar where
  beq
    | pinned name hash tag, pinned name' hash' tag' => name == name' && hash == hash' && tag == tag'
    | a, b => same a b

instance : HashEquiv Scalar where
  hash
    | nil => HashEquiv.hash ()
    | boolean b => HashEquiv.hash b
    | integer n => HashEquiv.hash n
    | text s => HashEquiv.hash s
    | char c => HashEquiv.hash c
    | int8 n => HashEquiv.hash n
    | int16 n => HashEquiv.hash n
    | int32 n => HashEquiv.hash n
    | uint8 n => HashEquiv.hash n
    | uint16 n => HashEquiv.hash n
    | uint32 n => HashEquiv.hash n
    | uint64 n => HashEquiv.hash n
    | signedWord n => HashEquiv.hash n
    | unsignedWord n => HashEquiv.hash n
    | pinned _ hash _ => hash
    | unequal n => HashEquiv.hash n
    | lonely n => HashEquiv.hash n
  equiv
    | pinned name _ _, pinned name' _ _ => name == name'
    | unequal m, unequal n => m == n
    | a, b => same a b

end Scalar

end HashTrie
