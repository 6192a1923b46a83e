import FormulaMachine.Decimal.Reading
import FormulaMachine.Expr
import FormulaMachine.Names
import FormulaMachine.Script

/-!
Reading expressions. From loose to tight: `&` and `|`, one comparison, `+` and `-`, `*` and `/`,
signs, and `^` with a signed exponent.
-/
namespace FormulaMachine

/-- A token and its place in the source. -/
structure Placed where
  token : Token
  column : Column
deriving DecidableEq

namespace Placed

/-- Puts tokens one after another and leaves the blank ones out. -/
def all (offset : Nat) : List Token → List Placed
  | [] => []
  | t :: ts =>
    let stop := offset + t.width
    if t.isBlank then all stop ts else ⟨t, offset, stop⟩ :: all stop ts

def operator? (p : Placed) : Option Operator :=
  match p.token with
  | .operator op => some op
  | _ => none

def isSign (p : Placed) : Bool := p.operator?.any Operator.isAdditive

def isMinus (p : Placed) : Bool := p.operator? == some .subtract

/-- A run of signs negates if it has an odd number of minuses, in the column of the first. -/
def negation? (signs : List Placed) : Option Column :=
  let minuses := signs.filter isMinus
  if minuses.length % 2 = 1 then minuses.head?.map (·.column) else none

end Placed

/-- What is left to read, the names known so far, and where the text ends. -/
structure Reading where
  tokens : List Placed
  names : Names
  stop : Nat

/-- Reading never puts tokens back. -/
structure Outcome (α : Type) (s : Reading) where
  result : Except Error α
  rest : Reading
  length_le : rest.tokens.length ≤ s.tokens.length

def Parser (α : Type) : Type := (s : Reading) → Outcome α s

namespace Parser

/-- Names found before an error stay known after it. -/
instance : Monad Parser where
  pure a s := ⟨.ok a, s, Nat.le_refl _⟩
  bind p f s :=
    match p s with
    | ⟨.error e, rest, h⟩ => ⟨.error e, rest, h⟩
    | ⟨.ok a, rest, h⟩ =>
      let o := f a rest
      ⟨o.result, o.rest, Nat.le_trans o.length_le h⟩

def fail (kind : ErrorKind) (column : Column) (detail : String := "") : Parser α := fun s =>
  ⟨.error { kind, column, detail }, s, Nat.le_refl _⟩

/-- The next token and its column, which is empty at the end. -/
def next : Parser (Option Token × Column) := fun s =>
  match s with
  | ⟨[], names, stop⟩ => ⟨.ok (none, .before stop), ⟨[], names, stop⟩, Nat.le_refl _⟩
  | ⟨p :: ps, names, stop⟩ => ⟨.ok (some p.token, p.column), ⟨ps, names, stop⟩, Nat.le_succ _⟩

/-- Takes the next token if it is an operator of the given sort. -/
def operator? (sort : Operator → Bool) : Parser (Option (Operator × Column)) := fun s =>
  match s with
  | ⟨[], names, stop⟩ => ⟨.ok none, ⟨[], names, stop⟩, Nat.le_refl _⟩
  | ⟨p :: ps, names, stop⟩ =>
    match p.operator?.filter sort with
    | some op => ⟨.ok (some (op, p.column)), ⟨ps, names, stop⟩, Nat.le_succ _⟩
    | none => ⟨.ok none, ⟨p :: ps, names, stop⟩, Nat.le_refl _⟩

def signs : Parser (List Placed) := fun s =>
  ⟨.ok (s.tokens.takeWhile Placed.isSign),
    { s with tokens := s.tokens.dropWhile Placed.isSign },
    (List.dropWhile_sublist _).length_le⟩

def resolve (name : String) : Parser (Option Binding) := fun s =>
  let (binding, names) := s.names.resolve name
  ⟨.ok binding, { s with names }, Nat.le_refl _⟩

/-- Adds to `x` the operators of the given sort that follow, each with a term after it. -/
def chain (sort : Operator → Bool) (term : Parser Expr) (x : Expr) : Parser Expr := fun s =>
  match h : s.tokens with
  | [] => ⟨.ok x, s, Nat.le_refl _⟩
  | p :: ps =>
    match p.operator?.filter sort with
    | none => ⟨.ok x, s, Nat.le_refl _⟩
    | some op =>
      match term { s with tokens := ps } with
      | ⟨.error e, rest, hr⟩ => ⟨.error e, rest, by rw [h]; exact Nat.le_succ_of_le hr⟩
      | ⟨.ok y, rest, hr⟩ =>
        let o := chain sort term (.binary p.column op x y) rest
        ⟨o.result, o.rest, by rw [h]; exact Nat.le_succ_of_le (Nat.le_trans o.length_le hr)⟩
termination_by s => s.tokens.length
decreasing_by rw [h]; exact Nat.lt_succ_of_le hr

def leftAssociative (sort : Operator → Bool) (term : Parser Expr) : Parser Expr := do
  chain sort term (← term)

def openParen : Parser Unit := do
  match ← next with
  | (some .leftParen, _) => pure ()
  | (_, column) => fail .parenthesisExpected column

def comma : Parser Unit := do
  match ← next with
  | (some .comma, _) => pure ()
  | (_, column) => fail .commaExpected column

def closeParen : Parser Unit := do
  match ← next with
  | (some .rightParen, _) => pure ()
  | (none, column) => fail .unbalancedParentheses column
  | (some .comma, column) => fail .malformed column "TOO MANY ARGUMENTS"
  | (some (.unknown _), column) => fail .malformed column
  | (some _, column) => fail .operatorExpected column

/-- The two places of the grammar that nest. -/
structure Levels where
  expression : Parser Expr
  unary : Parser Expr

/-- Goes one level deeper on account of the token in `column`, if there is a deeper level. -/
def nested (inner : Option Levels) (column : Column) (p : Levels → Parser α) : Parser α :=
  match inner with
  | some levels => p levels
  | none => fail .stackOverflow column "EXPRESSION TOO COMPLEX"

def parenthesized (levels : Levels) : Parser Expr := do
  let x ← levels.expression
  closeParen
  return x

def choice (column : Column) (levels : Levels) : Parser Expr := do
  openParen
  let condition ← levels.expression
  comma
  let yes ← levels.expression
  comma
  let no ← levels.expression
  closeParen
  return .choice column condition yes no

def call (column : Column) (f : Builtin) (levels : Levels) : Parser Expr := do
  openParen
  let x ← levels.expression
  match f with
  | .unary f =>
    closeParen
    return .call column f x
  | .binary f =>
    comma
    let y ← levels.expression
    closeParen
    return .call₂ column f x y

def identifier (inner : Option Levels) (column : Column) (name : String) : Parser Expr :=
  if name = "pi" then return .operand column .pi
  else if name = "e" then return .operand column .euler
  else if name = "if" then nested inner column (choice column)
  else
    match Builtin.ofName? name with
    | some f => nested inner column (call column f)
    | none => do
      match ← resolve name with
      | some (.var index) => return .operand column (.var index)
      | some (.ref index) => return .operand column (.ref index)
      | none => fail .unknownIdentifier column

def atom (inner : Option Levels) : Parser Expr := do
  match ← next with
  | (some (.literal text), column) =>
    match Decimal.read? text.toList with
    | some value => return .operand column (.literal value)
    | none => fail .malformed column "INVALID NUMBER"
  | (some .leftParen, column) => nested inner column parenthesized
  | (some (.identifier name), column) => identifier inner column name
  | (some (.operator _), column) => fail .operatorExpected column
  | (some (.unknown _), column) => fail .malformed column
  | (_, column) => fail .expressionExpected column

def power (inner : Option Levels) : Parser Expr := do
  let base ← atom inner
  match ← operator? (· == .power) with
  | some (op, column) => return .binary column op base (← nested inner column (·.unary))
  | none => return base

/-- Signs apply after `^`, so `-x^y` is `-(x^y)`. -/
def unary (inner : Option Levels) : Parser Expr := do
  let run ← signs
  let x ← power inner
  match Placed.negation? run with
  | some column => return .negation column x
  | none => return x

def sum (inner : Option Levels) : Parser Expr :=
  leftAssociative Operator.isAdditive (leftAssociative Operator.isMultiplicative (unary inner))

def comparison (inner : Option Levels) : Parser Expr := do
  let x ← sum inner
  match ← operator? Operator.isRelational with
  | none => return x
  | some (op, column) =>
    let y ← sum inner
    match ← operator? Operator.isRelational with
    | none => return .binary column op x y
    | some (_, second) => fail .invalidOperator second "ONE COMPARISON PER TERM"

def expression (inner : Option Levels) : Parser Expr :=
  leftAssociative Operator.isLogical (comparison inner)

/-- The grammar with so many levels of nesting below it. -/
def levels : Nat → Levels
  | 0 => ⟨expression none, unary none⟩
  | room + 1 => ⟨expression (some (levels room)), unary (some (levels room))⟩

/-- Parentheses, calls and exponents nest no deeper. -/
def maxNesting : Nat := 200

def finish : Parser Unit := do
  match ← next with
  | (none, _) => pure ()
  | (some .rightParen, column) => fail .unbalancedParentheses column
  | (some .comma, column) => fail .malformed column "UNEXPECTED COMMA"
  | (some (.unknown _), column) => fail .malformed column
  | (some _, column) => fail .operatorExpected column

def whole : Parser Expr := do
  let x ← (levels maxNesting).expression
  finish
  return x

end Parser

namespace Reading

def ofText (text : String) (offset : Nat) (names : Names) : Reading :=
  ⟨Placed.all offset (Token.lex text.toList), names, offset + text.length⟩

end Reading

/-- The expression that a segment holds, and the names known after it. -/
def Expr.parse (segment : Segment) (names : Names) : Except Error Expr × Names :=
  let o := Parser.whole (.ofText segment.text segment.offset names)
  (o.result, o.rest.names)

end FormulaMachine
