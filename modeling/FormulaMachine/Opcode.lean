import FormulaMachine.Function
import FormulaMachine.Operator

/-!
The instructions of the stack machine.
-/
namespace FormulaMachine

/-- A `number` loads the next constant. A `branch` skips instructions unless the value on top is
true, a `jump` always does, and `endIf` marks where they lead. -/
inductive Opcode
  | number
  | pi
  | euler
  | var (index : Nat)
  | ref (index : Nat)
  | branch (skip : Nat)
  | jump (skip : Nat)
  | endIf
  | negate
  | binary (op : Operator)
  | call (f : UnaryFunction)
  | call₂ (f : BinaryFunction)
deriving DecidableEq

namespace Opcode

def isNumber : Opcode → Bool
  | .number => true
  | _ => false

/-- How many instructions may be skipped. -/
def skip? : Opcode → Option Nat
  | .branch skip | .jump skip => some skip
  | _ => none

def operatorText : Operator → String
  | .power => "POW"
  | .multiply => "MUL"
  | .divide => "DIV"
  | .add => "ADD"
  | .subtract => "SUB"
  | .equal => "EQ"
  | .notEqual => "NOTEQ"
  | .less => "LT"
  | .lessEqual => "LTEQ"
  | .greater => "GT"
  | .greaterEqual => "GTEQ"
  | .and => "AND"
  | .or => "OR"

def text : Opcode → String
  | .number => "NUMERIC"
  | .pi => "PI"
  | .euler => "E"
  | .var index => s!"VAR({index})"
  | .ref index => s!"REF({index})"
  | .branch skip => s!"IF({skip})"
  | .jump skip => s!"JUMP({skip})"
  | .endIf => "ENDIF"
  | .negate => "NEG"
  | .binary op => operatorText op
  | .call f => f.name.toUpper
  | .call₂ f => f.name.toUpper

end Opcode

def Builtin.opcode : Builtin → Opcode
  | unary f => .call f
  | binary f => .call₂ f

end FormulaMachine
