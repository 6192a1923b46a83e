import FormulaMachine.Number.Units

/-!
Remainders of doubles.
-/
namespace FormulaMachine.Number

/-- What is left after taking away the divisor as often as it goes in. This is exact and has the
sign of the dividend. An infinite divisor leaves everything; a zero divisor or an infinite dividend leave
nothing that is a number. -/
def modulo (x y : Float) : Float :=
  if y == 0 || x.isInf || x.isNaN || y.isNaN then nan
  else if y.isInf then x
  else
    let r := ofMagnitude (magnitude x % magnitude y)
    if isNegative x then -r else r

/-- The remainder that is meant to lie within half a divisor of zero. It changes sign with the
dividend, not with the divisor. -/
def remainder (x y : Float) : Float :=
  if y == 0 || x.isInf || x.isNaN || y.isNaN then nan
  else if y.isInf then x
  else
    let y := y.abs
    -- what is left of twice the divisor shows whether it went in once more
    let twice := modulo x.abs (2 * y)
    let (r, odd) := if y ≤ twice then (twice - y, true) else (twice, false)
    let r := if y / 2 < r || r == y / 2 && odd then r - y else r
    if x < 0 then -r else r

end FormulaMachine.Number
