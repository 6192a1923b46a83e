import FormulaMachine.Operator

/-!
What the operators compute. Truth values are 1 and 0, and all but zero is true.
-/
namespace FormulaMachine

def isTrue (x : Float) : Bool := x != 0

def truth (b : Bool) : Float := if b then 1 else 0

namespace Operator

/-- A zero divisor counts as the distance from 1 to the next double. -/
def quotient (x y : Float) : Float :=
  if y == 0 then x / Float.ofBits 0x3CB0000000000000 else x / y

def apply (op : Operator) (x y : Float) : Float :=
  match op with
  | power => x.pow y
  | multiply => x * y
  | divide => quotient x y
  | add => x + y
  | subtract => x - y
  | equal => truth (x == y)
  | notEqual => truth (x != y)
  | less => truth (x < y)
  | lessEqual => truth (x ≤ y)
  | greater => truth (y < x)
  | greaterEqual => truth (y ≤ x)
  | and => truth (isTrue x && isTrue y)
  | or => truth (isTrue x || isTrue y)

end Operator
end FormulaMachine
