/-!
# Shortest decimals

The shortest decimal that reads back as a given floating point number: a multiple of the largest
power of ten that has a multiple among the reals which round to the number, and of two such
multiples the nearer one, or the even one when they are equally near. `text` lays the digits out:
without an exponent from `10 ^ -5` up to, but without, `10 ^ 16`, and else with a signed exponent.
-/

namespace HashTrie.Decimal

/-- The positive number `mantissa * 2 ^ exponent`, with the interval of reals that round to it, all
as fractions over one denominator. -/
structure Neighbourhood where
  lower : Nat
  value : Nat
  upper : Nat
  denominator : Nat
  /-- Whether the ends of the interval round to the number as well. -/
  closed : Bool

/-- The neighbourhood of the number with this biased exponent and these fraction bits. -/
def Neighbourhood.ofParts (biased fraction : Nat) : Neighbourhood :=
  let mantissa := if biased = 0 then fraction else fraction + Nat.pow 2 52
  let exponent := biased - 1
  -- the value is `mantissa * 2 ^ (exponent - 1074)`; all is counted in quarters of the last place
  let gap := if fraction = 0 ∧ 1 < biased then 1 else 2
  { lower := (4 * mantissa - gap) * Nat.pow 2 exponent
    value := 4 * mantissa * Nat.pow 2 exponent
    upper := (4 * mantissa + 2) * Nat.pow 2 exponent
    denominator := 4 * Nat.pow 2 1074
    closed := mantissa % 2 = 0 }

/-- The neighbourhood in units of `10 ^ power`. -/
def Neighbourhood.scale (n : Neighbourhood) (power : Int) : Neighbourhood :=
  if 0 ≤ power then { n with denominator := n.denominator * Nat.pow 10 power.toNat }
  else
    let factor := Nat.pow 10 (-power).toNat
    { n with lower := n.lower * factor, value := n.value * factor, upper := n.upper * factor }

/-- Whether an integer lies in the interval. -/
def Neighbourhood.holds (n : Neighbourhood) (k : Nat) : Bool :=
  let scaled := k * n.denominator
  if n.closed then n.lower ≤ scaled && scaled ≤ n.upper
  else n.lower < scaled && scaled < n.upper

/-- The integer in the interval that is nearest to the value, the even one in a tie. -/
def Neighbourhood.nearest? (n : Neighbourhood) : Option Nat :=
  let below := n.value / n.denominator
  let rest := n.value % n.denominator
  match n.holds below, n.holds (below + 1) with
  | false, false => none
  | true, false => some below
  | false, true => some (below + 1)
  | true, true =>
    if 2 * rest < n.denominator then some below
    else if n.denominator < 2 * rest then some (below + 1)
    else if below % 2 = 0 then some below
    else some (below + 1)

/-- The digits and the power of ten of the shortest decimal in a neighbourhood. -/
def Neighbourhood.shortest (n : Neighbourhood) : Nat × Int :=
  let found := (List.range 640).findSome? fun (i : Nat) =>
    let power : Int := 310 - (i : Int)
    ((n.scale power).nearest?).map fun digits => (digits, power)
  found.getD (0, 0)

/-- That many zeros. -/
def zeros (count : Nat) : List Char := List.replicate count '0'

/-- An integer with its sign, which is written also when it is a plus. -/
def signed (n : Int) : List Char :=
  (if n < 0 then '-' else '+') :: (toString n.natAbs).toList

/-- Lay out digits times a power of ten. -/
def layout (digits : List Char) (power : Int) : List Char :=
  let point := power + digits.length
  if 0 ≤ power ∧ point ≤ 16 then digits ++ zeros power.toNat ++ ['.', '0']
  else if 0 < point ∧ point ≤ 16 then digits.take point.toNat ++ '.' :: digits.drop point.toNat
  else if -5 < point ∧ point ≤ 0 then '0' :: '.' :: zeros (-point).toNat ++ digits
  else
    let exponent := 'e' :: signed (point - 1)
    match digits with
    | [d] => d :: exponent
    | d :: rest => d :: '.' :: rest ++ exponent
    | [] => exponent

/-- The text of a finite floating point number. -/
def text (x : Float) : String :=
  let bits := x.toBits.toNat
  let sign := if Nat.pow 2 63 ≤ bits then ['-'] else []
  let biased := bits / Nat.pow 2 52 % Nat.pow 2 11
  let fraction := bits % Nat.pow 2 52
  if biased = 0 ∧ fraction = 0 then String.ofList (sign ++ ['0', '.', '0'])
  else
    let (digits, power) := (Neighbourhood.ofParts biased fraction).shortest
    String.ofList (sign ++ layout (toString digits).toList power)

end HashTrie.Decimal
