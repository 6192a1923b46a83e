import FormulaMachine.Error

/-!
Sums of words of 64 bits, and what becomes of those that are too large.
-/
namespace FormulaMachine

/-- What a machine does about a sum that is no word. One that checks its sums panics. Another one
goes on with the low bits of the sum. -/
inductive Overflow
  | panics
  | wraps
deriving DecidableEq

/-- After a panic there is no result, not even an error. -/
inductive Fault
  | error (e : Error)
  | panic
deriving DecidableEq

def Overflow.add (o : Overflow) (a b : Nat) : Except Fault Nat :=
  if a + b < UInt64.size then .ok (a + b)
  else
    match o with
    | panics => .error .panic
    | wraps => .ok (a + b - UInt64.size)

end FormulaMachine
