import HashTrie.Value.Basic

/-!
# Series of keys and values

A series is a run of entries made by arithmetic: the keys are an arithmetic progression, as
integers, as texts, or as pinned values whose hash is computed from the progression; the values are
another progression. All arithmetic wraps.
-/

namespace HashTrie

/-- How the numbers of a series become keys. -/
inductive SeriesKey where
  | integer
  | text
  | pinned
  deriving DecidableEq

/-- A run of entries. -/
structure Series where
  kind : SeriesKey
  start : Int64
  count : Nat
  step : Int64
  valueFactor : Int64
  valueOffset : Int64
  hashFactor : UInt32
  hashOffset : UInt32
  /-- The modulus of the hashes; zero stands for none. -/
  hashModulus : UInt32
  /-- The number of zero bits put behind a hash. -/
  hashShift : Nat

namespace Series

/-- The number behind the key at an index. -/
def number (s : Series) (i : Nat) : Int64 := s.start + Int64.ofNat i * s.step

/-- The hash of the pinned key of a number. -/
def pinnedHash (s : Series) (x : Int64) : UInt32 :=
  let h := x.toUInt64.toUInt32 * s.hashFactor + s.hashOffset
  let h := if s.hashModulus = 0 then h else h % s.hashModulus
  if s.hashShift < 32 then h <<< UInt32.ofNat s.hashShift else 0

/-- The key of a number. -/
def key (s : Series) (x : Int64) : Scalar :=
  match s.kind with
  | .integer => .integer x
  | .text => .text ("k" ++ toString x.toInt)
  | .pinned => .pinned x (s.pinnedHash x) 0

/-- The number in the value at an index. -/
def value (s : Series) (i : Nat) : Int64 := Int64.ofNat i * s.valueFactor + s.valueOffset

/-- The entries of a series. -/
def entries {depth : Nat} (s : Series) : List (Entry (Value depth) (Value depth)) :=
  (List.range s.count).map fun i =>
    ⟨Value.ofScalar (s.key (s.number i)), Value.ofScalar (.integer (s.value i))⟩

end Series

end HashTrie
