/-!
# JSON trees and their compact text

A tree of JSON values, without floating point numbers, and its text without blanks. The members of
an object are written in the order in which they stand.
-/

namespace HashTrie

/-- A JSON value. -/
inductive Json where
  | null
  | boolean (b : Bool)
  | integer (n : Int)
  | text (s : String)
  | array (elements : List Json)
  | object (members : List (String × Json))

namespace Json

/-- One hexadecimal digit, in lower case. -/
def hexDigit (n : Nat) : Char := Nat.digitChar (n % 16)

/-- How a character is written inside quotes: control characters, quotes and backslashes escaped,
all others as they are. -/
def escapeChar (c : Char) : List Char :=
  if c = '"' then ['\\', '"']
  else if c = '\\' then ['\\', '\\']
  else if c = '\n' then ['\\', 'n']
  else if c = '\r' then ['\\', 'r']
  else if c = '\t' then ['\\', 't']
  else if c.toNat = 0x08 then ['\\', 'b']
  else if c.toNat = 0x0c then ['\\', 'f']
  else if c.toNat < 0x20 then ['\\', 'u', '0', '0', hexDigit (c.toNat / 16), hexDigit c.toNat]
  else [c]

/-- A text in quotes, on characters. -/
def quoteChars (cs : List Char) : List Char :=
  '"' :: cs.flatMap escapeChar ++ ['"']

/-- A text in quotes. -/
def quote (s : String) : String := String.ofList (quoteChars s.toList)

mutual

/-- The compact text of a value. -/
def compress : Json → String
  | null => "null"
  | boolean true => "true"
  | boolean false => "false"
  | integer n => toString n
  | text s => quote s
  | array elements => "[" ++ String.intercalate "," (compressElements elements) ++ "]"
  | object members => "\x7b" ++ String.intercalate "," (compressMembers members) ++ "\x7d"

/-- The compact texts of the elements of an array. -/
def compressElements : List Json → List String
  | [] => []
  | element :: rest => compress element :: compressElements rest

/-- The compact texts of the members of an object. -/
def compressMembers : List (String × Json) → List String
  | [] => []
  | (name, value) :: rest => (quote name ++ ":" ++ compress value) :: compressMembers rest

end

end Json

end HashTrie
