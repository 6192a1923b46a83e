import FormulaMachine.Formula.Compiler
import FormulaMachine.Proofs.Script

/-!
Compiling, told by the definitions of a script and its main expression. A source always has a last
segment, which is the main expression, so none is ever missing.
-/
namespace FormulaMachine

namespace Compiler

/-- The programs of definitions, each of which is known to those after it. -/
def definitions (c : Compiler) (names : Names) :
    List Definition → Except Error (List (String × Program) × Names)
  | [] => .ok ([], names)
  | d :: ds => do
    let (program, names) ← c.segment d.toSegment names
    let (references, names) ← c.definitions (names.declare d.name) ds
    return ((d.name, program) :: references, names)

def script (c : Compiler) (source : String) : Except Error Formula := do
  let script ← Script.ofSource? source
  let (references, names) ← c.definitions c.names script.definitions
  let (main, names) ← c.segment script.main names
  return { source, vars := names.vars, references, main }

variable (c : Compiler)

theorem foldlM_add_definitions (done : Progress) (ds : List Definition) :
    (ds.map Definition.toPart).foldlM c.add done =
      (c.definitions done.names ds).map fun (references, names) =>
        { done with names, references := done.references ++ references } := by
  induction ds generalizing done with
  | nil => simp [definitions, Except.map, pure, Except.pure]
  | cons d ds ih =>
    rw [List.map_cons, List.foldlM_cons, add, definitions]
    change (c.segment d.toSegment done.names >>= _) >>= _ = _
    cases c.segment d.toSegment done.names with
    | error e => rfl
    | ok r =>
      refine (ih _).trans ?_
      change _ = Except.map _ (c.definitions (r.2.declare d.name) ds >>= _)
      cases c.definitions (r.2.declare d.name) ds with
      | error e => rfl
      | ok r' => simp [Except.map, pure, Except.pure, bind, Except.bind]

/-- Compiling goes over the definitions and the main expression. -/
theorem compileSegments_eq (source : String) : c.compileSegments source = c.script source := by
  rw [compileSegments, script, Script.split?_eq]
  cases Script.ofSource? source with
  | error e => rfl
  | ok script =>
    change List.foldlM c.add _ script.parts >>= _ = c.definitions c.names script.definitions >>= _
    rw [Script.parts, List.foldlM_append, foldlM_add_definitions]
    cases c.definitions c.names script.definitions with
    | error e => rfl
    | ok r =>
      change ((c.segment script.main r.2 >>= _) >>= _) >>= _ = c.segment script.main r.2 >>= _
      cases c.segment script.main r.2 <;> rfl

theorem compile_eq (source : String) :
    c.compile source = (c.script source).mapError (·.inSource source) := by
  rw [compile, compileSegments_eq]

end Compiler
end FormulaMachine
