import HashTrie.Json.ReadError

/-!
# Reading numbers

A number is an integer when it has neither a fraction nor an exponent and fits into 64 bits, and a
floating point number otherwise; so is minus zero. The significand of a floating point number takes
digits as long as it fits into 64 bits and ignores those that follow.
-/

namespace HashTrie.Json

/-- A number as it is read. -/
inductive Number where
  /-- An integer from 0 to `2 ^ 64 - 1`. -/
  | natural (n : Nat)
  /-- An integer from `-2 ^ 63` to `-1`. -/
  | negative (n : Int)
  | floating (x : Float)

namespace Number

/-- Take digits into a significand while it fits into 64 bits; the number of digits taken comes with
the result. -/
def takeDigits (significand : Nat) : List Char → Nat × Nat
  | [] => (significand, 0)
  | d :: rest =>
    let next := significand * 10 + (d.toNat - '0'.toNat)
    if next < UInt64.size then
      let (result, taken) := takeDigits next rest
      (result, taken + 1)
    else
      (significand, 0)

/-- The digits at the front of a text, and the rest. -/
def splitDigits (s : List Char) : List Char × List Char :=
  (s.takeWhile Char.isDigit, s.dropWhile Char.isDigit)

/-- The number that digits stand for. -/
def ofDigits (digits : List Char) : Nat :=
  digits.foldl (fun n d => n * 10 + (d.toNat - '0'.toNat)) 0

/-- A power of ten as a floating point number. -/
def tenTo (exponent : Nat) : Float := Float.ofScientific 1 false exponent

/-- Divide by a power of ten, by at most `10 ^ 308` at a time. -/
def divideByTens (x : Float) (exponent : Nat) : Float :=
  if x == 0 then x
  else if exponent ≤ 308 then x / tenTo exponent
  else divideByTens (x / tenTo 308) (exponent - 308)
termination_by exponent
decreasing_by omega

/-- The floating point number of a sign, a significand and a decimal exponent; one that is too large
is refused. -/
def toFloat (negative : Bool) (significand : Nat) (exponent : Int) : Except ReadError Float :=
  let x := significand.toUInt64.toFloat
  let scaled : Except ReadError Float :=
    if exponent < 0 then .ok (divideByTens x (-exponent).toNat)
    else if exponent ≤ 308 then
      let y := x * tenTo exponent.toNat
      if y.isInf then .error .malformed else .ok y
    else if x == 0 then .ok x
    else .error .malformed
  scaled.map fun y => if negative then -y else y

/-- The number with this sign and significand and neither fraction nor exponent. -/
def ofInteger (negative : Bool) (n : Nat) : Number :=
  if !negative then .natural n
  else if n = 0 ∨ Nat.pow 2 63 < n then .floating (-n.toUInt64.toFloat)
  else .negative (-n)

/-- Read an exponent behind its letter and finish the number. -/
def readExponent (negative : Bool) (significand : Nat) (exponent : Int) (s : List Char) :
    Except ReadError (Number × List Char) :=
  let (down, s) : Bool × List Char :=
    match s with
    | '+' :: rest => (false, rest)
    | '-' :: rest => (true, rest)
    | _ => (false, s)
  match splitDigits s with
  | ([], []) => .error .truncated
  | ([], _) => .error .malformed
  | (digits, rest) => do
    let shift : Int := ofDigits digits
    let x ← toFloat negative significand (if down then exponent - shift else exponent + shift)
    .ok (.floating x, rest)

/-- Read an exponent, if there is one, and finish the number. -/
def readScale (negative : Bool) (significand : Nat) (exponent : Int) (s : List Char) :
    Except ReadError (Number × List Char) :=
  match s with
  | 'e' :: rest => readExponent negative significand exponent rest
  | 'E' :: rest => readExponent negative significand exponent rest
  | _ => do
    let x ← toFloat negative significand exponent
    .ok (.floating x, s)

/-- Read a fraction behind its point and finish the number. -/
def readFraction (negative : Bool) (significand : Nat) (exponent : Int) (s : List Char) :
    Except ReadError (Number × List Char) :=
  match splitDigits s with
  | ([], []) => .error .truncated
  | ([], _) => .error .malformed
  | (digits, rest) =>
    let (significand, taken) := takeDigits significand digits
    readScale negative significand (exponent - taken) rest

/-- Read what follows the integer digits of a number. -/
def readTail (negative : Bool) (digits : List Char) (s : List Char) :
    Except ReadError (Number × List Char) :=
  let (significand, taken) := takeDigits 0 digits
  let dropped : Nat := digits.length - taken
  match s with
  | '.' :: rest => readFraction negative significand dropped rest
  | _ =>
    if dropped ≠ 0 ∨ s.head? = some 'e' ∨ s.head? = some 'E' then
      readScale negative significand dropped s
    else
      .ok (ofInteger negative significand, s)

/-- Read a number behind its sign. Only the number zero begins with the digit zero. -/
def readUnsigned (negative : Bool) (s : List Char) : Except ReadError (Number × List Char) :=
  match splitDigits s with
  | ([], []) => .error .truncated
  | ([], _) => .error .malformed
  | ('0' :: _ :: _, _) => .error .malformed
  | (digits, rest) => readTail negative digits rest

/-- Read a number with an optional sign. -/
def read : List Char → Except ReadError (Number × List Char)
  | '-' :: rest => readUnsigned true rest
  | s => readUnsigned false s

/-- How a number is named where something else was expected. -/
def found : Number → Found
  | natural n => .integer n
  | negative n => .integer n
  | floating x => .floating x

/-- The 64-bit integer that a number is. -/
def toInt64 : Number → Except ReadError Int64
  | natural n =>
    if n < Nat.pow 2 63 then .ok (Int64.ofNat n) else .error (.wrongValue (.integer n) .integer)
  | negative n => .ok (Int64.ofInt n)
  | floating x => .error (.wrongType (.floating x) .integer)

end Number

end HashTrie.Json
