/-!
Logarithms of numbers near one.
-/
namespace FormulaMachine.Number

/-- The logarithm of `1 + t`. What the sum loses of a small `t` is made up for to first order. -/
def logOnePlus (t : Float) : Float :=
  let u := 1 + t
  if u == 1 then t
  else if u == 0 || u.isInf then u.log
  else u.log + (t - (u - 1)) / u

/-- Half the logarithm of `(1 + x) / (1 - x)`, taken as that of one and the rounded quotient
`2 * x / (1 - x)`. Near minus one the rounding shows, and the function is not odd. -/
def artanh (x : Float) : Float := 0.5 * logOnePlus (2 * x / (1 - x))

end FormulaMachine.Number
