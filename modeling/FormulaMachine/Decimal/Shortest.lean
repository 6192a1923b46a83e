import FormulaMachine.Decimal.Reading

/-!
Writing doubles: the fewest digits that read back, and of those the nearest, without an exponent.
-/
namespace FormulaMachine.Decimal

/-- The number of digits before the point of `a / b`, less the number of zeros right after it. -/
def exponent (a b : Nat) : Int :=
  if b ≤ a then digitCount (a / b) else 1 - (digitCount ((b + a - 1) / a - 1) : Int)

/-- The reals that round to a positive double, in quarters of a unit. -/
structure Interval where
  value : Nat
  low : Nat
  high : Nat
  closed : Bool

/-- Neighbours are half as far below a power of two as above it. Halfway points go to the even
significand. -/
def Interval.of (x : Float) : Interval :=
  let gap := Nat.pow 2 (Number.scale x)
  let value := 4 * Number.magnitude x
  let below := if Number.significand x = Nat.pow 2 52 ∧ 1 < Number.exponentField x then gap else 2 * gap
  { value, low := value - below, high := value + 2 * gap, closed := Number.significand x % 2 == 0 }

/-- A quarter of a unit is `2 ^ (-1076)`. -/
def quarters : Nat := Nat.pow 2 1076

/-- The multiple of `10 ^ p` in an interval that is nearest to its value, of two the upper. -/
def Interval.nearest? (i : Interval) (p : Int) : Option Nat :=
  let step := Nat.pow 10 p.toNat * quarters
  let fold := Nat.pow 10 (-p).toNat
  let inside (d : Nat) : Bool :=
    if i.closed then i.low * fold ≤ d * step && d * step ≤ i.high * fold
    else i.low * fold < d * step && d * step < i.high * fold
  let below := i.value * fold / step
  let rest := i.value * fold % step
  match inside below, inside (below + 1) with
  | true, true => some (if 2 * rest < step then below else below + 1)
  | true, false => some below
  | false, true => some (below + 1)
  | false, false => none

/-- The digits of a positive double as a number `d` and an exponent `p`, for `d * 10 ^ p`.
Seventeen digits are always enough. -/
def shortest (x : Float) : Nat × Int :=
  let i := Interval.of x
  let e := exponent i.value quarters
  ((List.range 17).findSome? fun (k : Nat) =>
    let p := e - 1 - k
    (i.nearest? p).map (·, p)).getD (0, 0)

/-- Writes `d * 10 ^ p` in full, a fraction without zeros at its end. -/
def positional (d : Nat) (p : Int) : String :=
  let all := Nat.toDigits 10 d
  let digits := (all.reverse.dropWhile (· == '0')).reverse
  let point : Int := all.length + p
  let written :=
    if point ≤ 0 then '0' :: '.' :: (List.replicate (-point).toNat '0' ++ digits)
    else if (digits.length : Int) ≤ point then
      digits ++ List.replicate (point.toNat - digits.length) '0'
    else digits.take point.toNat ++ '.' :: digits.drop point.toNat
  String.ofList written

def textOfSize (x : Float) : String :=
  if x.isInf then "inf"
  else if x == 0 then "0"
  else
    let (d, p) := shortest x
    positional d p

def text (x : Float) : String :=
  if x.isNaN then "NaN"
  else if Number.isNegative x then "-" ++ textOfSize x
  else textOfSize x

end FormulaMachine.Decimal
