import FormulaMachine.Expr.Parser

/-!
The grammar of expressions.

    expression = comparison { ( "&" | "|" ) comparison }
    comparison = sum [ ( "=" | "<>" | "<" | "<=" | ">" | ">=" ) sum ]
    sum        = product { ( "+" | "-" ) product }
    product    = unary { ( "*" | "/" ) unary }
    unary      = { "+" | "-" } power
    power      = atom [ "^" unary ]
    atom       = number | name | name "(" expression { "," expression } ")" | "(" expression ")"

What is derived is a phrase, an expression whose names have not been looked up yet.
-/
namespace FormulaMachine

/-- Columns are those of `Expr`. -/
inductive Phrase
  | literal (column : Column) (value : Float)
  | pi (column : Column)
  | euler (column : Column)
  | name (column : Column) (name : String)
  | call (column : Column) (f : UnaryFunction) (x : Phrase)
  | call₂ (column : Column) (f : BinaryFunction) (x y : Phrase)
  | choice (column : Column) (condition yes no : Phrase)
  | negation (column : Column) (x : Phrase)
  | binary (column : Column) (op : Operator) (x y : Phrase)

/-- Names that no variable and no definition can be reached by. -/
def reserved : List String := ["pi", "e", "if"] ++ Builtin.all.map Builtin.name

/-- From loose to tight. -/
inductive Rank
  | expression | comparison | sum | product | unary | power | atom
deriving DecidableEq

namespace Rank

/-- The rank of the parts. A lone part counts as a whole. -/
def parts? : Rank → Option Rank
  | expression => some comparison
  | comparison => some sum
  | sum => some product
  | product => some unary
  | power => some atom
  | unary | atom => none

/-- The operators that join any number of parts, from left to right. -/
def joins : Rank → Operator → Bool
  | expression => Operator.isLogical
  | sum => Operator.isAdditive
  | product => Operator.isMultiplicative
  | _ => fun _ => false

end Rank

/-- What placed tokens derive, with parentheses, calls, choices and exponents nested `room` deep or
less. -/
inductive Derives : (room : Nat) → Rank → List Placed → Phrase → Prop
  | lone {room : Nat} {k j : Rank} {xs : List Placed} {x : Phrase} :
    k.parts? = some j → Derives room j xs x → Derives room k xs x
  | join {room : Nat} {k j : Rank} {op : Operator} {c : Column} {xs ys : List Placed}
      {x y : Phrase} :
    k.parts? = some j → k.joins op → Derives room k xs x → Derives room j ys y →
    Derives room k (xs ++ ⟨.operator op, c⟩ :: ys) (.binary c op x y)
  | compare {room : Nat} {op : Operator} {c : Column} {xs ys : List Placed} {x y : Phrase} :
    op.isRelational → Derives room .sum xs x → Derives room .sum ys y →
    Derives room .comparison (xs ++ ⟨.operator op, c⟩ :: ys) (.binary c op x y)
  | signed {room : Nat} {run xs : List Placed} {x : Phrase} :
    (∀ p ∈ run, p.isSign) → run.countP Placed.isMinus % 2 = 0 → Derives room .power xs x →
    Derives room .unary (run ++ xs) x
  | negated {room : Nat} {run xs : List Placed} {minus : Placed} {x : Phrase} :
    (∀ p ∈ run, p.isSign) → run.countP Placed.isMinus % 2 = 1 →
    run.find? Placed.isMinus = some minus → Derives room .power xs x →
    Derives room .unary (run ++ xs) (.negation minus.column x)
  | exponent {room : Nat} {c : Column} {xs ys : List Placed} {x y : Phrase} :
    Derives (room + 1) .atom xs x → Derives room .unary ys y →
    Derives (room + 1) .power (xs ++ ⟨.operator .power, c⟩ :: ys) (.binary c .power x y)
  | literal {room : Nat} {text : String} {value : Float} {c : Column} :
    Decimal.read? text.toList = some value →
    Derives room .atom [⟨.literal text, c⟩] (.literal c value)
  | pi {room : Nat} {c : Column} : Derives room .atom [⟨.identifier "pi", c⟩] (.pi c)
  | euler {room : Nat} {c : Column} : Derives room .atom [⟨.identifier "e", c⟩] (.euler c)
  | name {room : Nat} {name : String} {c : Column} :
    name ∉ reserved → Derives room .atom [⟨.identifier name, c⟩] (.name c name)
  | parenthesized {room : Nat} {l r : Column} {xs : List Placed} {x : Phrase} :
    Derives room .expression xs x →
    Derives (room + 1) .atom (⟨.leftParen, l⟩ :: xs ++ [⟨.rightParen, r⟩]) x
  | call {room : Nat} {f : UnaryFunction} {c l r : Column} {xs : List Placed} {x : Phrase} :
    Derives room .expression xs x →
    Derives (room + 1) .atom
      (⟨.identifier f.name, c⟩ :: ⟨.leftParen, l⟩ :: xs ++ [⟨.rightParen, r⟩]) (.call c f x)
  | call₂ {room : Nat} {f : BinaryFunction} {c l m r : Column} {xs ys : List Placed}
      {x y : Phrase} :
    Derives room .expression xs x → Derives room .expression ys y →
    Derives (room + 1) .atom
      (⟨.identifier f.name, c⟩ :: ⟨.leftParen, l⟩ :: xs ++ ⟨.comma, m⟩ :: ys ++ [⟨.rightParen, r⟩])
      (.call₂ c f x y)
  | choice {room : Nat} {c l m n r : Column} {xs ys zs : List Placed} {x y z : Phrase} :
    Derives room .expression xs x → Derives room .expression ys y →
    Derives room .expression zs z →
    Derives (room + 1) .atom
      (⟨.identifier "if", c⟩ :: ⟨.leftParen, l⟩ :: xs ++ ⟨.comma, m⟩ :: ys ++ ⟨.comma, n⟩ :: zs ++
        [⟨.rightParen, r⟩]) (.choice c x y z)

def Binding.operand : Binding → Operand
  | var index => .var index
  | ref index => .ref index

/-- The names of a phrase are looked up from left to right, each in the table that the ones before
it have left. -/
inductive Resolves : Names → Phrase → Expr → Names → Prop
  | literal {names : Names} {c : Column} {value : Float} :
    Resolves names (.literal c value) (.operand c (.literal value)) names
  | pi {names : Names} {c : Column} : Resolves names (.pi c) (.operand c .pi) names
  | euler {names : Names} {c : Column} : Resolves names (.euler c) (.operand c .euler) names
  | name {names names' : Names} {c : Column} {name : String} {b : Binding} :
    names.resolve name = (some b, names') →
    Resolves names (.name c name) (.operand c b.operand) names'
  | call {names names' : Names} {c : Column} {f : UnaryFunction} {x : Phrase} {a : Expr} :
    Resolves names x a names' → Resolves names (.call c f x) (.call c f a) names'
  | call₂ {names names₁ names' : Names} {c : Column} {f : BinaryFunction} {x y : Phrase}
      {a b : Expr} :
    Resolves names x a names₁ → Resolves names₁ y b names' →
    Resolves names (.call₂ c f x y) (.call₂ c f a b) names'
  | choice {names names₁ names₂ names' : Names} {c : Column} {x y z : Phrase} {a b d : Expr} :
    Resolves names x a names₁ → Resolves names₁ y b names₂ → Resolves names₂ z d names' →
    Resolves names (.choice c x y z) (.choice c a b d) names'
  | negation {names names' : Names} {c : Column} {x : Phrase} {a : Expr} :
    Resolves names x a names' → Resolves names (.negation c x) (.negation c a) names'
  | binary {names names₁ names' : Names} {c : Column} {op : Operator} {x y : Phrase} {a b : Expr} :
    Resolves names x a names₁ → Resolves names₁ y b names' →
    Resolves names (.binary c op x y) (.binary c op a b) names'

/-- The tokens of a segment that are not blank. -/
def Segment.tokens (s : Segment) : List Placed := Placed.all s.offset (Token.lex s.text.toList)

end FormulaMachine
