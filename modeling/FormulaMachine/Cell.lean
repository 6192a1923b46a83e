import FormulaMachine.Formula.Compiler

/-!
Cells, which hold one formula and evaluate it again and again.
-/
namespace FormulaMachine

/-- The formula and the error are set by definitions, one of them each time and the other cleared.
The flag `sawNaN` tells of the last evaluation; a definition clears it. Each seed has a random source,
which is `seeded`. -/
structure Cell where
  compiler : Compiler
  formula? : Option Formula := none
  error? : Option Error := none
  sawNaN : Bool := false
  random : RandomSource
  seeded : UInt64 → RandomSource

namespace Cell

/-- Makes `random` repeatable. -/
def seed (c : Cell) (seed : UInt64) : Cell := { c with random := c.seeded seed }

/-- With the discovered ones, if a formula is held. -/
def vars (c : Cell) : List String :=
  match c.formula? with
  | some f => f.vars
  | none => c.compiler.vars

/-- A definition that fails drops the formula, and one that succeeds drops the error. -/
def define (c : Cell) (source : String) : Except Error Unit × Cell :=
  let c := { c with sawNaN := false }
  match c.compiler.compile source with
  | .ok f => (.ok (), { c with formula? := some f, error? := none })
  | .error e => (.error e, { c with formula? := none, error? := some e })

def evaluate (c : Cell) (values : List Float) : Except Error Float × Cell :=
  let c := { c with sawNaN := false }
  match c.formula? with
  | none => (.error { kind := .nothingCompiled }, c)
  | some f =>
    match f.run values c.random with
    | (.error e, random) => (.error e, { c with random })
    | (.ok r, random) => (.ok r.value, { c with sawNaN := r.sawNaN, random })

def evaluate₁ (c : Cell) (x : Float) : Except Error Float × Cell := c.evaluate [x]

def evaluate₂ (c : Cell) (x y : Float) : Except Error Float × Cell := c.evaluate [x, y]

def evaluate₃ (c : Cell) (x y z : Float) : Except Error Float × Cell := c.evaluate [x, y, z]

end Cell
end FormulaMachine
