/-!
# Errors of the map

The three ways in which a map refuses a request, and their texts.
-/

namespace HashTrie

/-- Why a map refuses a request. -/
inductive MapError where
  /-- The next entry was asked of a cursor that has none left. -/
  | exhausted
  /-- A new key was to be added, and the map has it already. -/
  | keyPresent
  /-- A list of this length was given where a key and a value were expected. -/
  | notAPair (length : Nat)
  deriving DecidableEq

/-- The text of an error. -/
def MapError.message : MapError → String
  | exhausted => "iterator reached the end of collection"
  | keyPresent => "key already present"
  | notAPair length =>
    "vector arg to map conj must be a pair, got " ++ toString length ++ " elements"

end HashTrie
