import FormulaMachine.Operator

/-!
Tokens, the words a formula is written in.
-/
namespace FormulaMachine

inductive Token
  | unknown (c : Char)
  | blank (count : Nat)
  | literal (text : String)
  | identifier (name : String)
  | operator (op : Operator)
  | leftParen
  | rightParen
  | comma
deriving DecidableEq

namespace Token

/-- Blanks of every kind are written as spaces. -/
def text : Token → String
  | unknown c => c.toString
  | blank count => String.ofList (List.replicate count ' ')
  | literal text => text
  | identifier name => name
  | operator op => op.text
  | leftParen => "("
  | rightParen => ")"
  | comma => ","

def width (t : Token) : Nat := t.text.length

/-- The token that a single character stands for. -/
def ofChar? : Char → Option Token
  | '(' => some leftParen
  | ')' => some rightParen
  | ',' => some comma
  | c => (Operator.ofChar? c).map operator

def isBlank : Token → Bool
  | blank _ => true
  | _ => false

end Token
end FormulaMachine
