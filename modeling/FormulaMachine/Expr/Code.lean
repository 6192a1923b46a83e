import FormulaMachine.Expr
import FormulaMachine.Fragment

/-!
Pieces of code for the parts of an expression. Numbers and truth values are kept apart here, and only
here.
-/
namespace FormulaMachine

inductive Kind
  | number
  | boolean
deriving DecidableEq

namespace Operator

/-- The kind of both operands. -/
def operandKind (op : Operator) : Kind := if op.isLogical then .boolean else .number

def resultKind (op : Operator) : Kind :=
  if op.isLogical || op.isRelational then .boolean else .number

end Operator

/-- The code of a part of an expression, its kind, and the column from its first token to its last
operand. -/
structure Piece where
  column : Column
  kind : Kind
  fragment : Fragment

namespace Piece

def expect (p : Piece) (kind : Kind) : Except Error Unit :=
  if p.kind = kind then .ok () else .error { kind := .invalidOperand, column := p.column }

end Piece

namespace Operand

def fragment : Operand → Fragment
  | literal x => Fragment.empty.pushNumber x
  | pi => Fragment.empty.push .pi
  | euler => Fragment.empty.push .euler
  | var index => Fragment.empty.push (.var index)
  | ref index => Fragment.empty.push (.ref index)

end Operand
end FormulaMachine
