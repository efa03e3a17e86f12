import HashTrie.Map.Equality
import HashTrie.Value.Scalar

/-!
# Values

Dynamic values, by depth of nesting: a value of depth 0 is a scalar, and a value of depth `n + 1` is
a scalar, or is put together from values of depth `n`. The parts of a value are held by lists,
entries, maps, options and cells as they are for any type, so hash, equivalence and equality of a
value are those of these types, one layer at a time.
-/

namespace HashTrie

/-- A scalar, or a value put together from parts. -/
inductive Layer (α : Type) where
  | scalar (s : Scalar)
  | vector (elements : List α)
  | entry (e : Entry α α)
  | map (m : Map α α)
  | option (part : Option α)
  | boxed (part : α)
  | borrowed (part : α)
  | shared (cell : Shared α)
  | sharedAtomic (cell : Shared α)

namespace Layer

variable {α : Type}

/-- Values of one kind are equal when what they hold is. -/
instance [HashEquiv α] [BEq α] : BEq (Layer α) where
  beq
    | scalar a, scalar b => a == b
    | vector a, vector b => a == b
    | entry a, entry b => a == b
    | map a, map b => a == b
    | option a, option b => a == b
    | boxed a, boxed b => a == b
    | borrowed a, borrowed b => a == b
    | shared a, shared b => a == b
    | sharedAtomic a, sharedAtomic b => a == b
    | _, _ => false

instance [HashEquiv α] : HashEquiv (Layer α) where
  hash
    | scalar s => HashEquiv.hash s
    | vector elements => HashEquiv.hash elements
    | entry e => HashEquiv.hash e
    | map m => HashEquiv.hash m
    | option part => HashEquiv.hash part
    | boxed part => HashEquiv.hash part
    | borrowed part => HashEquiv.hash part
    | shared cell => HashEquiv.hash cell
    | sharedAtomic cell => HashEquiv.hash cell
  equiv
    | scalar a, scalar b => equiv a b
    | vector a, vector b => equiv a b
    | entry a, entry b => equiv a b
    | map a, map b => equiv a b
    | option a, option b => equiv a b
    | boxed a, boxed b => equiv a b
    | borrowed a, borrowed b => equiv a b
    | shared a, shared b => equiv a b
    | sharedAtomic a, sharedAtomic b => equiv a b
    | _, _ => false

end Layer

/-- A value nested at most so deep. -/
def Value : Nat → Type
  | 0 => Scalar
  | depth + 1 => Layer (Value depth)

namespace Value

@[reducible] instance hashEquiv : (depth : Nat) → HashEquiv (Value depth)
  | 0 => inferInstanceAs (HashEquiv Scalar)
  | depth + 1 =>
    let _ := hashEquiv depth
    inferInstanceAs (HashEquiv (Layer (Value depth)))

@[reducible] instance beq : (depth : Nat) → BEq (Value depth)
  | 0 => inferInstanceAs (BEq Scalar)
  | depth + 1 =>
    let _ := beq depth
    inferInstanceAs (BEq (Layer (Value depth)))

/-- A scalar as a value of any depth. -/
def ofScalar : {depth : Nat} → Scalar → Value depth
  | 0, s => s
  | _ + 1, s => Layer.scalar s

/-- The scalar that a value is. -/
def scalar? : {depth : Nat} → Value depth → Option Scalar
  | 0, s => some s
  | _ + 1, .scalar s => some s
  | _ + 1, _ => none

@[simp] theorem scalar?_ofScalar {depth : Nat} (s : Scalar) :
    scalar? (@ofScalar depth s) = some s := by
  cases depth <;> rfl

end Value

/-- Values that can be reckoned with. -/
class Numeral (α : Type) where
  /-- The number that a value stands for. -/
  toInt64 : α → Int64
  /-- The value that stands for a number. -/
  ofInt64 : Int64 → α

/-- An integer stands for itself, and any other value for its hash. -/
instance {depth : Nat} : Numeral (Value depth) where
  toInt64 v :=
    match v.scalar? with
    | some (.integer n) => n
    | _ => (HashEquiv.hash v).toUInt64.toInt64
  ofInt64 n := Value.ofScalar (.integer n)

end HashTrie
