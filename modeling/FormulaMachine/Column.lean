/-!
Columns: stretches of a formula's source, counted in characters from zero.
-/
namespace FormulaMachine

/-- Half-open: `stop` is the first character after the stretch. -/
structure Column where
  start : Nat
  stop : Nat
deriving DecidableEq, Inhabited

namespace Column

/-- The empty column in front of character `n`. -/
def before (n : Nat) : Column := ⟨n, n⟩

def isEmpty (c : Column) : Bool := c.stop ≤ c.start

def contains (c : Column) (i : Nat) : Bool := c.start ≤ i && i < c.stop

/-- People count characters from one. -/
def position (c : Column) : Nat := c.start + 1

end Column
end FormulaMachine
