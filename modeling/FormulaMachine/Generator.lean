import FormulaMachine.Expr.Code
import FormulaMachine.Stack

/-!
The generator makes the code of an expression. It goes over the parts, each after its own parts, and
keeps the pieces that wait for the rest of their expression on a stack.
-/
namespace FormulaMachine

/-- So many pieces may wait for the rest of their expression. -/
def Expr.maxPending : Nat := 1024

/-- The pieces that wait, and the number of constants that have been asked for, of which there may
be `ceiling`. -/
structure Generator where
  ceiling : Nat
  pieces : Stack Piece := { capacity := Expr.maxPending, overflow := "EXPRESSION TOO COMPLEX" }
  constants : Nat := 0

namespace Generator

/-- Takes the latest piece. -/
def pop (g : Generator) : Except Error (Piece × Generator) :=
  match g.pieces.pop with
  | (.ok p, pieces) => .ok (p, { g with pieces })
  | (.error e, _) => .error e

/-- Takes the two latest pieces, the earlier one first, and looks at them in that order. -/
def pop₂ (g : Generator) (kind : Kind) : Except Error (Piece × Piece × Generator) :=
  match g.pieces.pop₂ with
  | (.ok (p, q), pieces) => do
    p.expect kind
    q.expect kind
    return (p, q, { g with pieces })
  | (.error e, _) => .error e

def popN (g : Generator) (n : Nat) : Except Error (List Piece × Generator) :=
  match g.pieces.popN n with
  | (.ok ps, pieces) => .ok (ps, { g with pieces })
  | (.error e, _) => .error e

/-- Puts a piece on the stack. If that is full the piece is to blame. -/
def push (g : Generator) (p : Piece) : Except Error Generator :=
  match g.pieces.push p with
  | .ok pieces => .ok { g with pieces }
  | .error e => .error { e with column := p.column }

def operand (g : Generator) (column : Column) (o : Operand) : Except Error (Piece × Generator) :=
  match o with
  | .literal _ =>
    let g := { g with constants := g.constants + 1 }
    if g.ceiling < g.constants then .error { kind := .tooManyConstants, column }
    else .ok (⟨column, .number, o.fragment⟩, g)
  | _ => .ok (⟨column, .number, o.fragment⟩, g)

def negation (g : Generator) (column : Column) : Except Error (Piece × Generator) := do
  let (x, g) ← g.pop
  x.expect .number
  return (⟨⟨column.start, x.column.stop⟩, .number,
    (Fragment.empty ++ x.fragment).push .negate⟩, g)

def binary (g : Generator) (op : Operator) : Except Error (Piece × Generator) := do
  let (x, y, g) ← g.pop₂ op.operandKind
  return (⟨⟨x.column.start, y.column.stop⟩, op.resultKind,
    (Fragment.empty ++ x.fragment ++ y.fragment).push (.binary op)⟩, g)

/-- The code of arguments that are looked at one after another, behind the code so far, and where
the last of them ends. -/
def arguments (code : Fragment) (stop : Nat) : List Piece → Except Error (Fragment × Nat)
  | [] => .ok (code, stop)
  | p :: ps => do
    p.expect .number
    arguments (code ++ p.fragment) p.column.stop ps

def call (g : Generator) (column : Column) (name : String) (count : Nat) :
    Except Error (Piece × Generator) :=
  match Builtin.ofName? name with
  | none => .error { kind := .unknownIdentifier, column }
  | some f =>
    if f.arity ≠ count then
      .error { kind := .commaExpected, column, detail := "WRONG NUMBER OF ARGUMENTS" }
    else do
      let (ps, g) ← g.popN count
      let (code, stop) ← arguments .empty column.stop ps
      return (⟨⟨column.start, stop⟩, .number, code.push f.opcode⟩, g)

def choice (g : Generator) (column : Column) : Except Error (Piece × Generator) := do
  let (no, g) ← g.pop
  let (yes, g) ← g.pop
  let (condition, g) ← g.pop
  if yes.kind = no.kind then
    return (⟨⟨column.start, no.column.stop⟩, yes.kind,
      (Fragment.empty ++ condition.fragment).pushChoice yes.fragment no.fragment⟩, g)
  else
    .error { kind := .invalidOperand, column := no.column, detail := "BRANCHES DIFFER IN TYPE" }

/-- The piece of an expression whose parts have their pieces on the stack, which are taken off. -/
def piece (g : Generator) : Expr → Except Error (Piece × Generator)
  | .operand column o => g.operand column o
  | .negation column _ => g.negation column
  | .binary _ op _ _ => g.binary op
  | .call column f _ => g.call column f.name 1
  | .call₂ column f _ _ => g.call column f.name 2
  | .choice column _ _ _ => g.choice column

def visit (g : Generator) (e : Expr) : Except Error Generator := do
  let (p, g) ← g.piece e
  g.push p

end Generator

/-- The program of an expression that has at most `ceiling` literals. Nothing follows the first
error. -/
def Expr.toProgram? (e : Expr) (ceiling : Nat) : Except Error Program := do
  let g ← e.postorder.foldlM Generator.visit { ceiling }
  let (p, _) ← g.pop
  p.fragment.toProgram?

end FormulaMachine
