import FormulaMachine.Error

/-!
Stacks of limited height.
-/
namespace FormulaMachine

/-- The top comes first. `overflow` says in an error what it means that the stack is full. -/
structure Stack (α : Type) where
  capacity : Nat
  overflow : String
  items : List α := []

namespace Stack

variable {α : Type}

def height (s : Stack α) : Nat := s.items.length

def isEmpty (s : Stack α) : Bool := s.items.isEmpty

def isFull (s : Stack α) : Bool := s.capacity ≤ s.height

/-- The items from the bottom up. -/
def toList (s : Stack α) : List α := s.items.reverse

def underflow : Error := { kind := .damagedCode, detail := "UNDERFLOW" }

def push (s : Stack α) (a : α) : Except Error (Stack α) :=
  if s.isFull then .error { kind := .stackOverflow, detail := s.overflow }
  else .ok { s with items := a :: s.items }

def pop (s : Stack α) : Except Error α × Stack α :=
  match s.items with
  | [] => (.error underflow, s)
  | a :: rest => (.ok a, { s with items := rest })

/-- The lower item first. A lone item is lost. -/
def pop₂ (s : Stack α) : Except Error (α × α) × Stack α :=
  match s.items with
  | [] => (.error underflow, s)
  | [_] => (.error underflow, { s with items := [] })
  | b :: a :: rest => (.ok (a, b), { s with items := rest })

/-- The `n` topmost items, the lowest first. -/
def popN (s : Stack α) (n : Nat) : Except Error (List α) × Stack α :=
  if n ≤ s.height then (.ok (s.items.take n).reverse, { s with items := s.items.drop n })
  else (.error underflow, s)

end Stack
end FormulaMachine
