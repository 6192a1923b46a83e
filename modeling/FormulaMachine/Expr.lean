import FormulaMachine.Column
import FormulaMachine.Function
import FormulaMachine.Operator

/-!
Expressions. Each node has the column of the token that introduced it.
-/
namespace FormulaMachine

inductive Operand
  | literal (value : Float)
  | pi
  | euler
  | var (index : Nat)
  | ref (index : Nat)
deriving DecidableEq

inductive Expr
  | operand (column : Column) (o : Operand)
  | call (column : Column) (f : UnaryFunction) (x : Expr)
  | call₂ (column : Column) (f : BinaryFunction) (x y : Expr)
  | choice (column : Column) (condition yes no : Expr)
  | negation (column : Column) (x : Expr)
  | binary (column : Column) (op : Operator) (x y : Expr)
deriving DecidableEq

namespace Expr

def column : Expr → Column
  | operand c _ | call c _ _ | call₂ c _ _ _ | choice c _ _ _ | negation c _ | binary c _ _ _ => c

/-- All parts of an expression, each after its own parts. -/
def postorder (e : Expr) : List Expr :=
  match e with
  | operand _ _ => [e]
  | call _ _ x | negation _ x => x.postorder ++ [e]
  | call₂ _ _ x y | binary _ _ x y => x.postorder ++ y.postorder ++ [e]
  | choice _ condition yes no => condition.postorder ++ yes.postorder ++ no.postorder ++ [e]

end Expr
end FormulaMachine
