import HashTrie.Json.Number

/-!
# Readers

A reader takes a value of a given type off the front of a JSON text. It goes from left to right and
reports the first error that it meets, so a value of the wrong kind is reported before malformed
text behind it. Blanks are skipped before a value and before the marks between values.
-/

namespace HashTrie.Json

/-- A computation that takes characters off the front of a text. -/
abbrev Reader (α : Type) : Type := StateT (List Char) (Except ReadError) α

namespace Reader

/-- Whether a character may stand between values. -/
def isBlank (c : Char) : Bool := c = ' ' || c = '\n' || c = '\t' || c = '\r'

/-- Refuse the text. -/
def fail {α : Type} (e : ReadError) : Reader α := fun _ => .error e

/-- The next character, which stays. -/
def peek : Reader (Option Char) := fun s => .ok (s.head?, s)

/-- The next character that is not blank; blanks before it are taken, and it stays. -/
def peekSolid : Reader (Option Char) := fun s =>
  let s := s.dropWhile isBlank
  .ok (s.head?, s)

/-- Take one character. -/
def drop : Reader Unit := fun s => .ok ((), s.drop 1)

/-- Take a given word. -/
def word : List Char → Reader Unit
  | [] => fun s => .ok ((), s)
  | c :: cs => fun
    | [] => .error .truncated
    | d :: s => if d = c then word cs s else .error .malformed

/-! ### Strings -/

/-- The value of a hexadecimal digit. -/
def hexValue? (c : Char) : Option Nat :=
  if '0' ≤ c ∧ c ≤ '9' then some (c.toNat - '0'.toNat)
  else if 'a' ≤ c ∧ c ≤ 'f' then some (c.toNat - 'a'.toNat + 10)
  else if 'A' ≤ c ∧ c ≤ 'F' then some (c.toNat - 'A'.toNat + 10)
  else none

/-- The number that four hexadecimal digits at the front of a text stand for. A text of fewer than
four bytes ends too early. -/
def readHex (s : List Char) : Except ReadError Nat :=
  if (String.ofList s).utf8ByteSize < 4 then .error .truncated
  else
    match s with
    | a :: b :: c :: d :: _ =>
      match hexValue? a, hexValue? b, hexValue? c, hexValue? d with
      | some a, some b, some c, some d => .ok (((a * 16 + b) * 16 + c) * 16 + d)
      | _, _, _, _ => .error .malformed
    | _ => .error .malformed

/-- The character that an escape by code unit stands for, and how many characters the escape takes
behind its letter. A high surrogate must be followed by the escape of a low one. -/
def readUnitEscape (s : List Char) : Except ReadError (Char × Nat) := do
  let unit ← readHex s
  if unit < 0xd800 ∨ 0xdfff < unit then .ok (Char.ofNat unit, 4)
  else if 0xdc00 ≤ unit then .error .malformed
  else
    match s.drop 4 with
    | [] => .error .truncated
    | '\\' :: [] => .error .truncated
    | '\\' :: 'u' :: rest => do
      let low ← readHex rest
      if low < 0xdc00 ∨ 0xdfff < low then .error .malformed
      else .ok (Char.ofNat (0x10000 + (unit - 0xd800) * 0x400 + (low - 0xdc00)), 10)
    | _ => .error .malformed

/-- The character that an escape stands for, and how many characters the escape takes behind its
backslash. -/
def readEscape : List Char → Except ReadError (Char × Nat)
  | [] => .error .truncated
  | '"' :: _ => .ok ('"', 1)
  | '\\' :: _ => .ok ('\\', 1)
  | '/' :: _ => .ok ('/', 1)
  | 'b' :: _ => .ok ('\x08', 1)
  | 'f' :: _ => .ok ('\x0c', 1)
  | 'n' :: _ => .ok ('\n', 1)
  | 'r' :: _ => .ok ('\r', 1)
  | 't' :: _ => .ok ('\t', 1)
  | 'u' :: rest => (readUnitEscape rest).map fun (c, taken) => (c, taken + 1)
  | _ :: _ => .error .malformed

/-- The characters of a string behind its opening quote, up to the closing one. -/
def stringChars (s : List Char) : Except ReadError (List Char × List Char) :=
  match s with
  | [] => .error .truncated
  | c :: rest =>
    if c = '"' then .ok ([], rest)
    else if c = '\\' then
      match readEscape rest with
      | .error e => .error e
      | .ok (c, taken) => (stringChars (rest.drop taken)).map fun (cs, s) => (c :: cs, s)
    else if c.toNat < 0x20 then .error .malformed
    else (stringChars rest).map fun (cs, s) => (c :: cs, s)
termination_by s.length
decreasing_by all_goals simp only [List.length_drop, List.length_cons]; omega

/-- A string behind its opening quote. -/
def stringTail : Reader String := fun s =>
  (stringChars s).map fun (cs, rest) => (String.ofList cs, rest)

/-! ### Scalars -/

/-- Refuse the value at hand, naming it. Literals, numbers and strings are read to their end
first. -/
def unexpected {α : Type} (expected : Expected) : Reader α := do
  match ← peek with
  | some 'n' => drop; word ['u', 'l', 'l']; fail (.wrongType .null expected)
  | some 't' => drop; word ['r', 'u', 'e']; fail (.wrongType (.boolean true) expected)
  | some 'f' => drop; word ['a', 'l', 's', 'e']; fail (.wrongType (.boolean false) expected)
  | some '"' => drop; fail (.wrongType (.text (← stringTail)) expected)
  | some '[' => fail (.wrongType .sequence expected)
  | some '{' => fail (.wrongType .map expected)
  | some c =>
    if c.isDigit || c = '-' then
      fail (.wrongType (← StateT.mk Number.read).found expected)
    else
      fail .malformed
  | none => fail .malformed

/-- Read a 64-bit integer. -/
def integer : Reader Int64 := do
  match ← peekSolid with
  | none => fail .truncated
  | some c =>
    if c.isDigit || c = '-' then
      let n ← StateT.mk Number.read
      StateT.lift n.toInt64
    else
      unexpected .integer

/-- Read a string. -/
def string : Reader String := do
  match ← peekSolid with
  | none => fail .truncated
  | some '"' => drop; stringTail
  | some _ => unexpected .text

/-- Read a null or a value. -/
def nullable {α : Type} (value : Reader α) : Reader (Option α) := do
  match ← peekSolid with
  | some 'n' => drop; word ['u', 'l', 'l']; return none
  | _ => return some (← value)

/-! ### Sequences -/

/-- Whether a sequence has a further element, which is then at hand. -/
def hasElement (first : Bool) : Reader Bool := do
  match ← peekSolid with
  | none => fail .truncated
  | some ']' => return false
  | some ',' =>
    if first then return true
    drop
    match ← peekSolid with
    | none => fail .truncated
    | some ']' => fail .malformed
    | some _ => return true
  | some _ => if first then return true else fail .malformed

/-- Take the end of a sequence. -/
def endSequence : Reader Unit := do
  match ← peekSolid with
  | none => fail .truncated
  | some ']' => drop
  | some _ => fail .malformed

/-- The elements of a sequence, at most `limit` of them. -/
def elements {α : Type} (element : Reader α) (first : Bool) : Nat → Reader (List α)
  | 0 => return []
  | limit + 1 => do
    if ← hasElement first then
      let a ← element
      return a :: (← elements element false limit)
    else
      return []

/-- The number of characters left, which bounds the number of values left. -/
def room : Reader Nat := fun s => .ok (s.length, s)

/-- Read a list. -/
def list {α : Type} (element : Reader α) : Reader (List α) := do
  match ← peekSolid with
  | none => fail .truncated
  | some '[' =>
    drop
    let as ← elements element true (← room)
    endSequence
    return as
  | some _ => unexpected .sequence

/-- Read a sequence of two values. -/
def pair {α β : Type} (left : Reader α) (right : Reader β) : Reader (α × β) := do
  match ← peekSolid with
  | none => fail .truncated
  | some '[' =>
    drop
    if !(← hasElement true) then fail (.wrongLength 0 .pair)
    let a ← left
    if !(← hasElement false) then fail (.wrongLength 1 .pair)
    let b ← right
    endSequence
    return (a, b)
  | some _ => unexpected .pair

/-! ### Objects -/

/-- Whether an object has a further member, whose name is then at hand. -/
def hasMember (first : Bool) : Reader Bool := do
  let next ← peekSolid
  match next with
  | none => fail .truncated
  | some '}' => return false
  | some c =>
    let name ← if c = ',' && !first then do drop; peekSolid
      else if first then pure next
      else fail .malformed
    match name with
    | none => fail .truncated
    | some '"' => return true
    | some _ => fail .malformed

/-- Read the name of a member as a string. -/
def stringName : Reader String := do drop; stringTail

/-- Read the name of a member as a 64-bit integer in quotes. -/
def integerName : Reader Int64 := do
  drop
  match ← peek with
  | none => fail .malformed
  | some c =>
    if c.isDigit || c = '-' then
      let n ← integer
      match ← peek with
      | some '"' => drop; return n
      | _ => fail .malformed
    else
      fail .malformed

/-- Take the colon between a name and its value. -/
def colon : Reader Unit := do
  match ← peekSolid with
  | none => fail .truncated
  | some ':' => drop
  | some _ => fail .malformed

/-- The members of an object, at most `limit` of them. -/
def members {κ ν : Type} (name : Reader κ) (value : Reader ν) (first : Bool) :
    Nat → Reader (List (κ × ν))
  | 0 => return []
  | limit + 1 => do
    if ← hasMember first then
      let k ← name
      colon
      let v ← value
      return (k, v) :: (← members name value false limit)
    else
      return []

/-- Take the end of an object. -/
def endObject : Reader Unit := do
  match ← peekSolid with
  | none => fail .truncated
  | some '}' => drop
  | some _ => fail .malformed

/-- Read the members of an object, in the order of the text. -/
def object {κ ν : Type} (name : Reader κ) (value : Reader ν) : Reader (List (κ × ν)) := do
  match ← peekSolid with
  | none => fail .truncated
  | some '{' =>
    drop
    let ms ← members name value true (← room)
    endObject
    return ms
  | some _ => unexpected .map

/-- Read a whole text as one value. -/
def run {α : Type} (reader : Reader α) (text : String) : Except ReadError α := do
  let (a, rest) ← StateT.run reader text.toList
  if (rest.dropWhile isBlank).isEmpty then .ok a else .error .malformed

end Reader

end HashTrie.Json
