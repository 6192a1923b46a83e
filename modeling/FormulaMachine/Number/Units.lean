/-!
A finite double is a whole number of units, the least positive double being the unit.
-/
namespace FormulaMachine.Number

def nan : Float := Float.ofBits 0x7FF8000000000000

def infinity : Float := Float.ofBits 0x7FF0000000000000

/-- Also of a negative zero. -/
def isNegative (x : Float) : Bool := x.toBits.toNat / Nat.pow 2 63 == 1

def exponentField (x : Float) : Nat := x.toBits.toNat / Nat.pow 2 52 % Nat.pow 2 11

def fractionField (x : Float) : Nat := x.toBits.toNat % Nat.pow 2 52

/-- The significand as a whole number, below `2 ^ 53`. -/
def significand (x : Float) : Nat :=
  if exponentField x = 0 then fractionField x else Nat.pow 2 52 + fractionField x

/-- The weight of the significand's last bit is `2 ^ scale` units. -/
def scale (x : Float) : Nat := exponentField x - 1

/-- The size of a finite double in units of `2 ^ (-1074)`. -/
def magnitude (x : Float) : Nat := significand x * Nat.pow 2 (scale x)

/-- The double of a given size, cut off where a significand has no room for it. -/
def ofMagnitude (n : Nat) : Float :=
  let scale := n.log2 - 52
  Float.ofBits (UInt64.ofNat (scale * Nat.pow 2 52 + n / Nat.pow 2 scale))

end FormulaMachine.Number
