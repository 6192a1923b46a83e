import FormulaMachine.Program.Run

/-!
Compiled formulas.
-/
namespace FormulaMachine

/-- References run before the main program, each with the values of those before it. -/
structure Formula where
  source : String
  vars : List String
  references : List (String × Program)
  main : Program

namespace Formula

/-- The program that a name refers to, the last of several. -/
def reference? (f : Formula) (name : String) : Option Program :=
  (f.references.reverse.find? (·.1 == name)).map (·.2)

/-- Headings stand only where there are references. -/
def listing (f : Formula) : List String :=
  f.references.flatMap (fun (name, program) => s!"[{name}]" :: program.listing) ++
    (if f.references.isEmpty then [] else ["[main]"]) ++ f.main.listing

/-- The listing with an end after each line. -/
def text (f : Formula) : String := String.join (f.listing.map (· ++ "\n"))

/-- Runs the programs that are left, after those that yielded the values in `env`. -/
def runFrom (main : Program) (env : Environment) (sawNaN : Bool) (random : RandomSource) :
    List (String × Program) → Except Error Evaluation × RandomSource
  | [] =>
    match main.run env random with
    | (.error e, random) => (.error e, random)
    | (.ok r, random) => (.ok (if sawNaN then { value := 0, sawNaN := true } else r), random)
  | (_, program) :: rest =>
    match program.run env random with
    | (.error e, random) => (.error e, random)
    | (.ok r, random) =>
      runFrom main { env with refs := env.refs ++ [r.value] } (sawNaN || r.sawNaN)
        random rest

/-- The value of a formula for the values of its variables. -/
def run (f : Formula) (values : List Float) (random : RandomSource) :
    Except Error Evaluation × RandomSource :=
  if values.length ≠ f.vars.length then (.error { kind := .valueCountMismatch }, random)
  else runFrom f.main { vars := values } false random f.references

/-- The value alone, for those who have no use for what is left of the random source. -/
def evaluate (f : Formula) (values : List Float) (random : RandomSource) : Except Error Evaluation :=
  (f.run values random).1

end Formula
end FormulaMachine
