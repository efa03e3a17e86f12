/-!
# Entries

A key with its value: what a map stores, finds and hands out.
-/

namespace HashTrie

/-- A key with its value. -/
structure Entry (K V : Type) where
  key : K
  value : V
  deriving DecidableEq, BEq

namespace Entry

variable {K V : Type}

/-- The entry as a pair. -/
def toPair (e : Entry K V) : K × V := (e.key, e.value)

/-- The entry of a pair. -/
def ofPair (p : K × V) : Entry K V := ⟨p.1, p.2⟩

@[simp] theorem ofPair_toPair (e : Entry K V) : ofPair e.toPair = e := rfl

@[simp] theorem toPair_ofPair (p : K × V) : (ofPair p).toPair = p := rfl

end Entry

end HashTrie
