import FormulaMachine.Number.Logarithm
import FormulaMachine.Number.Remainder
import FormulaMachine.RandomSource

/-!
The built-in functions.
-/
namespace FormulaMachine

inductive UnaryFunction
  | sin | cos | tan | asin | acos | atan
  | sinh | cosh | tanh | asinh | acosh | atanh
  | ln | log | abs | int | frac | ceil | floor | round
  | exp | sqr | sqrt | sign | step | random
deriving DecidableEq

inductive BinaryFunction
  | min | max | mod | atan2
deriving DecidableEq

namespace UnaryFunction

def all : List UnaryFunction :=
  [sin, cos, tan, asin, acos, atan, sinh, cosh, tanh, asinh, acosh, atanh, ln, log, abs, int, frac,
    ceil, floor, round, exp, sqr, sqrt, sign, step, random]

def name : UnaryFunction → String
  | sin => "sin"
  | cos => "cos"
  | tan => "tan"
  | asin => "asin"
  | acos => "acos"
  | atan => "atan"
  | sinh => "sinh"
  | cosh => "cosh"
  | tanh => "tanh"
  | asinh => "asinh"
  | acosh => "acosh"
  | atanh => "atanh"
  | ln => "ln"
  | log => "log"
  | abs => "abs"
  | int => "int"
  | frac => "frac"
  | ceil => "ceil"
  | floor => "floor"
  | round => "round"
  | exp => "exp"
  | sqr => "sqr"
  | sqrt => "sqrt"
  | sign => "sign"
  | step => "step"
  | random => "random"

/-- Only `random` looks at the random source, and takes one word from it. -/
def apply (f : UnaryFunction) (x : Float) (r : RandomSource) : Float × RandomSource :=
  match f with
  | sin => (x.sin, r)
  | cos => (x.cos, r)
  | tan => (x.tan, r)
  | asin => (x.asin, r)
  | acos => (x.acos, r)
  | atan => (x.atan, r)
  | sinh => (x.sinh, r)
  | cosh => (x.cosh, r)
  | tanh => (x.tanh, r)
  | asinh => (x.asinh, r)
  | acosh => (x.acosh, r)
  | atanh => (Number.artanh x, r)
  | ln => (x.log, r)
  | log => (x.log10, r)
  | abs => (x.abs, r)
  | int | round => ((x + 0.5).floor, r)
  | frac => (x - if x < 0 then x.ceil else x.floor, r)
  | ceil => (x.ceil, r)
  | floor => (x.floor, r)
  | exp => (x.exp, r)
  | sqr => (x * x, r)
  | sqrt => (x.sqrt, r)
  | sign => (if x > 0 then 1 else if x < 0 then -1 else x, r)
  | step => (if x < 0 then 0 else 1, r)
  | random =>
    let (u, r) := r.unit
    (u * x, r)

end UnaryFunction

namespace BinaryFunction

def all : List BinaryFunction := [min, max, mod, atan2]

def name : BinaryFunction → String
  | min => "min"
  | max => "max"
  | mod => "mod"
  | atan2 => "atan2"

/-- The smaller and the larger of two arguments leave a NaN aside. -/
def apply (f : BinaryFunction) (x y : Float) : Float :=
  match f with
  | min => if x.isNaN then y else if y < x then y else x
  | max => if x.isNaN then y else if x < y then y else x
  | mod => Number.remainder x y
  | atan2 => x.atan2 y

end BinaryFunction

inductive Builtin
  | unary (f : UnaryFunction)
  | binary (f : BinaryFunction)
deriving DecidableEq

namespace Builtin

def name : Builtin → String
  | unary f => f.name
  | binary f => f.name

def arity : Builtin → Nat
  | unary _ => 1
  | binary _ => 2

def all : List Builtin := UnaryFunction.all.map unary ++ BinaryFunction.all.map binary

def ofName? (name : String) : Option Builtin := all.find? (·.name == name)

theorem ofName?_name (f : Builtin) : ofName? f.name = some f := by
  obtain f | f := f <;> cases f <;> rfl

end Builtin
end FormulaMachine
