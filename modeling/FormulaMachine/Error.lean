import FormulaMachine.Column

/-!
What can go wrong with a formula, and how it is reported.
-/
namespace FormulaMachine

inductive ErrorKind
  | malformed
  | parenthesisExpected
  | nothingCompiled
  | expressionExpected
  | unknownIdentifier
  | operatorExpected
  | unbalancedParentheses
  | damagedCode
  | stackOverflow
  | tooManyConstants
  | commaExpected
  | invalidOperand
  | invalidOperator
  | separatorMissing
  | nameExpected
  | valueCountMismatch
deriving DecidableEq

namespace ErrorKind

def code : ErrorKind → Nat
  | malformed => 1
  | parenthesisExpected => 2
  | nothingCompiled => 3
  | expressionExpected => 4
  | unknownIdentifier => 5
  | operatorExpected => 6
  | unbalancedParentheses => 7
  | damagedCode => 8
  | stackOverflow => 9
  | tooManyConstants => 10
  | commaExpected => 11
  | invalidOperand => 12
  | invalidOperator => 13
  | separatorMissing => 14
  | nameExpected => 15
  | valueCountMismatch => 16

def description : ErrorKind → String
  | malformed => "syntax error"
  | parenthesisExpected => "parenthesis expected"
  | nothingCompiled => "uncompiled function"
  | expressionExpected => "expression expected"
  | unknownIdentifier => "unknown identifier"
  | operatorExpected => "operator expected"
  | unbalancedParentheses => "parentheses do not match"
  | damagedCode => "internal error: code damaged"
  | stackOverflow => "stack overflow"
  | tooManyConstants => "too many constants"
  | commaExpected => "comma expected"
  | invalidOperand => "invalid operand"
  | invalidOperator => "invalid operator"
  | separatorMissing => "missing reference definition separator"
  | nameExpected => "reference name expected"
  | valueCountMismatch => "wrong number of variable values"

end ErrorKind

/-- An error that belongs to no place in the source keeps the empty column at its start. -/
structure Error where
  kind : ErrorKind
  column : Column := .before 0
  detail : String := ""
  source : String := ""
deriving DecidableEq

namespace Error

def position (e : Error) : Nat := e.column.position

/-- Whether the source is to blame. A stack overflows for two reasons: the nesting of a source,
which has a column, and the height of the operands of a run, which has none. -/
def isCompileError (e : Error) : Bool :=
  match e.kind with
  | .nothingCompiled | .damagedCode | .valueCountMismatch => false
  | .stackOverflow => !e.column.isEmpty
  | _ => true

def inSource (e : Error) (source : String) : Error := { e with source }

/-- The one-line text. -/
def message (e : Error) : String :=
  let place := if e.isCompileError then s!" AT {e.position}" else ""
  let detail := if e.detail.isEmpty then "" else s!"; {e.detail}"
  e.kind.description.toUpper ++ place ++ detail

/-- The one-line text with a mark that it is an error. -/
def inspect (e : Error) : String := "Error \x7b " ++ e.message ++ " \x7d"

/-- The three-line text for whoever typed the formula. -/
def report (e : Error) : String :=
  s!"Error in function string: {e.source}\nError: {e.kind.description}\nPosition: {e.position}"

end Error
end FormulaMachine
