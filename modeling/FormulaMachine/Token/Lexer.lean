import FormulaMachine.Text.Blank
import FormulaMachine.Token

/-!
Cutting a text into tokens. Every text can be cut: a character that starts no token is a token
of its own.
-/
namespace FormulaMachine

/-- Letters, digits and the underscore are ASCII only. -/
def isNameStart (c : Char) : Bool := c.isAlpha || c == '_'

def isNameChar (c : Char) : Bool := isNameStart c || c.isDigit

/-- Whether the text is a single identifier. -/
def isName : List Char → Bool
  | [] => false
  | c :: cs => isNameStart c && cs.all isNameChar

namespace Literal

/-- How many characters of a text belong to a run of digits at its front. -/
def digitsLength (cs : List Char) : Nat := (cs.takeWhile Char.isDigit).length

def fractionLength : List Char → Nat
  | '.' :: cs => digitsLength cs + 1
  | _ => 0

def signLength : List Char → Nat
  | '+' :: _ | '-' :: _ => 1
  | _ => 0

/-- An `e` belongs to a literal only if digits follow: `2e` is the literal 2 and the constant e. -/
def exponentLength : List Char → Nat
  | [] => 0
  | c :: cs =>
    let sign := signLength cs
    let digits := digitsLength (cs.drop sign)
    if (c == 'e' || c == 'E') && digits ≠ 0 then 1 + sign + digits else 0

/-- How many characters of a text belong to a literal at its front. -/
def length (cs : List Char) : Nat :=
  let whole := digitsLength cs
  let mantissa := whole + fractionLength (cs.drop whole)
  mantissa + exponentLength (cs.drop mantissa)

/-- A point starts a literal only in front of a digit. -/
def startsWith : List Char → Bool
  | '.' :: c :: _ => c.isDigit
  | c :: _ => c.isDigit
  | [] => false

end Literal

namespace Token

/-- The first token of a text that begins with `c`, and what follows it. -/
def first (c : Char) (cs : List Char) : Token × List Char :=
  if Text.isBlank c then
    (blank ((cs.takeWhile Text.isBlank).length + 1), cs.dropWhile Text.isBlank)
  else if Literal.startsWith (c :: cs) then
    let more := Literal.length (c :: cs) - 1
    (literal (String.ofList (c :: cs.take more)), cs.drop more)
  else if isNameStart c then
    (identifier (String.ofList (c :: cs.takeWhile isNameChar)), cs.dropWhile isNameChar)
  else
    match ofChar? c with
    | some (operator op) =>
      match cs.head?.bind op.extend? with
      | some longer => (operator longer, cs.tail)
      | none => (operator op, cs)
    | some t => (t, cs)
    | none => (unknown c, cs)

theorem first_length_le (c : Char) (cs : List Char) : (first c cs).2.length ≤ cs.length := by
  have dropWhile_le (p : Char → Bool) : (cs.dropWhile p).length ≤ cs.length :=
    (List.dropWhile_sublist p).length_le
  unfold first
  repeat' split
  all_goals simp [dropWhile_le]

/-- All tokens of a text, blanks included. -/
def lex : List Char → List Token
  | [] => []
  | c :: cs => (first c cs).1 :: lex (first c cs).2
termination_by cs => cs.length
decreasing_by
  have := first_length_le c cs
  simp only [List.length_cons]
  omega

end Token
end FormulaMachine
