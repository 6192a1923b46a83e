/-!
The names that a formula may use: variables, and references to the definitions made so far.
-/
namespace FormulaMachine

/-- What a name stands for: a place in the list of variables or of references. -/
inductive Binding
  | var (index : Nat)
  | ref (index : Nat)
deriving DecidableEq

/-- With `discover`, an unknown name becomes the next variable. -/
structure Names where
  vars : List String := []
  refs : List String := []
  discover : Bool := false
deriving DecidableEq

namespace Names

/-- The place of the last definition of a name. -/
def latest? (refs : List String) (name : String) : Option Nat :=
  (refs.reverse.idxOf? name).map (refs.length - 1 - ·)

/-- Variables come first; of several definitions the latest counts. -/
def resolve (names : Names) (name : String) : Option Binding × Names :=
  match names.vars.idxOf? name with
  | some index => (some (.var index), names)
  | none =>
    match latest? names.refs name with
    | some index => (some (.ref index), names)
    | none =>
      if names.discover then
        (some (.var names.vars.length),
          { names with vars := names.vars ++ [name] })
      else (none, names)

def declare (names : Names) (name : String) : Names :=
  { names with refs := names.refs ++ [name] }

end Names
end FormulaMachine
