import HashTrie.Decimal.Shortest
import HashTrie.Text.Quoted

/-!
# Errors of reading

A text is refused because it ends too early, because it is not JSON, or because it is JSON of
another shape than the reader wants. The last kind names what was found and what was expected.
-/

namespace HashTrie.Json

/-- What stands in a text where something else was expected. -/
inductive Found where
  | null
  | boolean (b : Bool)
  | integer (n : Int)
  | floating (x : Float)
  | text (s : String)
  | sequence
  | map

/-- The text of what was found. -/
def Found.describe : Found → String
  | null => "null"
  | boolean true => "boolean \x60true\x60"
  | boolean false => "boolean \x60false\x60"
  | integer n => "integer \x60" ++ toString n ++ "\x60"
  | floating x => "floating point \x60" ++ Decimal.text x ++ "\x60"
  | text s => "string " ++ Quoted.quote s
  | sequence => "sequence"
  | map => "map"

/-- What a reader wants. -/
inductive Expected where
  | map
  | integer
  | text
  | sequence
  | pair
  deriving DecidableEq

/-- The text of what a reader wants. -/
def Expected.describe : Expected → String
  | map => "a map"
  | integer => "i64"
  | text => "a string"
  | sequence => "a sequence"
  | pair => "a tuple of size 2"

/-- Why a text is refused. -/
inductive ReadError where
  /-- The text ends too early. -/
  | truncated
  /-- The text is not JSON. -/
  | malformed
  /-- A value is of the wrong kind. -/
  | wrongType (found : Found) (expected : Expected)
  /-- A value is of the right kind and outside the range. -/
  | wrongValue (found : Found) (expected : Expected)
  /-- A sequence ends after this many elements. -/
  | wrongLength (length : Nat) (expected : Expected)

/-- The text of an error about the shape of a value. -/
def ReadError.message? : ReadError → Option String
  | truncated => none
  | malformed => none
  | wrongType found expected =>
    some ("invalid type: " ++ found.describe ++ ", expected " ++ expected.describe)
  | wrongValue found expected =>
    some ("invalid value: " ++ found.describe ++ ", expected " ++ expected.describe)
  | wrongLength length expected =>
    some ("invalid length " ++ toString length ++ ", expected " ++ expected.describe)

end HashTrie.Json
