import FormulaMachine.Expr.Parser
import FormulaMachine.Formula
import FormulaMachine.Generator

/-!
From the source of a formula to its programs.
-/
namespace FormulaMachine

/-- The `ceiling` bounds the constants of each program. -/
structure Compiler where
  vars : List String := []
  discover : Bool := false
  ceiling : Nat := 100

namespace Compiler

def names (c : Compiler) : Names := { vars := c.vars, discover := c.discover }

def segment (c : Compiler) (segment : Segment) (names : Names) : Except Error (Program × Names) :=
  match Expr.parse segment names with
  | (.error e, _) => .error e
  | (.ok e, names) => do return (← e.toProgram? c.ceiling, names)

/-- What has come of the segments so far. -/
structure Progress where
  names : Names
  references : List (String × Program) := []
  main? : Option Program := none

/-- A definition is known to the segments after it. -/
def add (c : Compiler) (done : Progress) (part : Part) : Except Error Progress := do
  let (program, names) ← c.segment part.toSegment done.names
  match part.name? with
  | some (_, name) =>
    return { done with names := names.declare name,
                       references := done.references ++ [(name, program)] }
  | none => return { done with names, main? := some program }

def compileSegments (c : Compiler) (source : String) : Except Error Formula := do
  let done ← (← Script.split? source).foldlM c.add { names := c.names }
  match done.main? with
  | some main => return { source, vars := done.names.vars, references := done.references, main }
  | none => .error (Program.damaged "NO MAIN EXPRESSION")

/-- An error carries the whole source. -/
def compile (c : Compiler) (source : String) : Except Error Formula :=
  (c.compileSegments source).mapError (·.inSource source)

end Compiler
end FormulaMachine
