/-!
The binary operators of a formula.
-/
namespace FormulaMachine

inductive Operator
  | power | multiply | divide | add | subtract
  | equal | notEqual | less | lessEqual | greater | greaterEqual
  | and | or
deriving DecidableEq

namespace Operator

def text : Operator → String
  | power => "^"
  | multiply => "*"
  | divide => "/"
  | add => "+"
  | subtract => "-"
  | equal => "="
  | notEqual => "<>"
  | less => "<"
  | lessEqual => "<="
  | greater => ">"
  | greaterEqual => ">="
  | and => "&"
  | or => "|"

/-- The operator that a single character stands for. -/
def ofChar? : Char → Option Operator
  | '^' => some power
  | '*' => some multiply
  | '/' => some divide
  | '+' => some add
  | '-' => some subtract
  | '=' => some equal
  | '<' => some less
  | '>' => some greater
  | '&' => some and
  | '|' => some or
  | _ => none

/-- The longer operator that one more character makes of this one. -/
def extend? : Operator → Char → Option Operator
  | less, '=' => some lessEqual
  | less, '>' => some notEqual
  | greater, '=' => some greaterEqual
  | _, _ => none

def isLogical : Operator → Bool
  | and | or => true
  | _ => false

def isRelational : Operator → Bool
  | equal | notEqual | less | lessEqual | greater | greaterEqual => true
  | _ => false

def isAdditive : Operator → Bool
  | add | subtract => true
  | _ => false

def isMultiplicative : Operator → Bool
  | multiply | divide => true
  | _ => false

end Operator
end FormulaMachine
