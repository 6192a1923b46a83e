import FormulaMachine.Operator.Apply
import FormulaMachine.Program
import FormulaMachine.Stack

/-!
The stack machine. Code is only ever skipped forwards, so a run ends after at most as many steps
as the program has instructions.
-/
namespace FormulaMachine

/-- The value of a run. Where a NaN was met the value is zero. -/
structure Evaluation where
  value : Float
  sawNaN : Bool
deriving DecidableEq

/-- The values that a program refers to. -/
structure Environment where
  vars : List Float := []
  refs : List Float := []

namespace Program

/-- So many operands may wait for their operators. -/
def maxOperands : Nat := 50

def noOperands : Stack Float := { capacity := maxOperands, overflow := "OPERAND STACK FULL" }

/-- The code still to run, the constants of that code, and what the run has come to. -/
structure State where
  code : List Opcode
  constants : List Float
  operands : Stack Float := noOperands
  sawNaN : Bool := false
  random : RandomSource

inductive Step
  | next (s : State)
  | halt
  | fail (e : Error) (random : RandomSource)

namespace State

def fail (s : State) (e : Error) : Step := .fail e s.random

def push (s : State) (x : Float) : Step :=
  match s.operands.push x with
  | .ok operands => .next { s with operands, sawNaN := s.sawNaN || x.isNaN }
  | .error e => s.fail e

def pop (s : State) (use : Float → State → Step) : Step :=
  match s.operands.pop with
  | (.ok x, operands) => use x { s with operands }
  | (.error e, _) => s.fail e

def pop₂ (s : State) (use : Float → Float → State → Step) : Step :=
  match s.operands.pop₂ with
  | (.ok (x, y), operands) => use x y { s with operands }
  | (.error e, _) => s.fail e

/-- Skipped numbers take their constants with them. -/
def skip (s : State) (n : Nat) : Step :=
  if n ≤ s.code.length then
    .next { s with
      code := s.code.drop n
      constants := s.constants.drop ((s.code.take n).countP Opcode.isNumber) }
  else s.fail (damaged "JUMP OUT OF RANGE")

def load (s : State) (x? : Option Float) (detail : String) : Step :=
  match x? with
  | some x => s.push x
  | none => s.fail (damaged detail)

/-- Does an instruction that has been taken from the code. -/
def perform (env : Environment) (s : State) : Opcode → Step
  | .number => { s with constants := s.constants.tail }.load s.constants.head? "CONSTANT OUT OF RANGE"
  | .pi => s.push 3.141592653589793
  | .euler => s.push 2.718281828459045
  | .var index => s.load env.vars[index]? "VARIABLE OUT OF RANGE"
  | .ref index => s.load env.refs[index]? "REFERENCE OUT OF RANGE"
  | .branch n => s.pop fun x s => if isTrue x then .next s else s.skip n
  | .jump n => s.skip n
  | .endIf => .next s
  | .negate => s.pop fun x s => s.push (-x)
  | .binary op => s.pop₂ fun x y s => s.push (op.apply x y)
  | .call f => s.pop fun x s =>
    let (y, random) := f.apply x s.random
    { s with random }.push y
  | .call₂ f => s.pop₂ fun x y s => s.push (f.apply x y)

def step (env : Environment) (s : State) : Step :=
  match s.code with
  | [] => .halt
  | op :: code => { s with code }.perform env op

/-- A run leaves one value. -/
def finish (s : State) : Except Error Evaluation :=
  match s.operands.items with
  | [] => .error Stack.underflow
  | [x] => .ok { value := if s.sawNaN then 0 else x, sawNaN := s.sawNaN }
  | _ => .error (damaged "VALUES LEFT ON STACK")

theorem push_code {s t : State} {x : Float} (h : s.push x = .next t) : t.code = s.code := by
  unfold push at h
  split at h
  · cases h; rfl
  · cases h

theorem load_code {s t : State} {x? : Option Float} {detail : String}
    (h : s.load x? detail = .next t) : t.code = s.code := by
  unfold load at h
  split at h
  · exact push_code h
  · cases h

theorem pop_next {s t : State} {use : Float → State → Step} (h : s.pop use = .next t) :
    ∃ x u, use x u = .next t ∧ u.code = s.code := by
  unfold pop at h
  split at h
  · exact ⟨_, _, h, rfl⟩
  · cases h

theorem pop₂_next {s t : State} {use : Float → Float → State → Step} (h : s.pop₂ use = .next t) :
    ∃ x y u, use x y u = .next t ∧ u.code = s.code := by
  unfold pop₂ at h
  split at h
  · exact ⟨_, _, _, h, rfl⟩
  · cases h

theorem skip_length_le {s t : State} {n : Nat} (h : s.skip n = .next t) :
    t.code.length ≤ s.code.length := by
  unfold skip at h
  split at h
  · cases h; simp
  · cases h

theorem perform_length_le {env : Environment} {s t : State} {op : Opcode}
    (h : s.perform env op = .next t) : t.code.length ≤ s.code.length := by
  have of_code_eq (hc : t.code = s.code) : t.code.length ≤ s.code.length := Nat.le_of_eq (hc ▸ rfl)
  cases op <;> rw [perform] at h
  case number =>
    have hc := load_code h
    exact of_code_eq hc
  case pi | euler => exact of_code_eq (push_code h)
  case var | ref => exact of_code_eq (load_code h)
  case branch =>
    obtain ⟨x, u, h, hu⟩ := pop_next h
    rw [← hu]
    split at h
    · cases h; exact Nat.le_refl _
    · exact skip_length_le h
  case jump => exact skip_length_le h
  case endIf => cases h; exact Nat.le_refl _
  case negate | call =>
    obtain ⟨x, u, h, hu⟩ := pop_next h
    exact of_code_eq ((push_code h).trans hu)
  case binary | call₂ =>
    obtain ⟨x, y, u, h, hu⟩ := pop₂_next h
    exact of_code_eq ((push_code h).trans hu)

theorem step_length_lt {env : Environment} {s t : State} (h : s.step env = .next t) :
    t.code.length < s.code.length := by
  unfold step at h
  split at h
  · cases h
  · next op code hc => simpa [hc] using Nat.lt_succ_of_le (perform_length_le h)

/-- Runs the code to its end. The random source is as the run leaves it, also after an error. -/
def run (env : Environment) (s : State) : Except Error Evaluation × RandomSource :=
  match _h : s.step env with
  | .halt => (s.finish, s.random)
  | .fail e random => (.error e, random)
  | .next t => t.run env
termination_by s.code.length
decreasing_by exact step_length_lt ‹_›

end State

def run (p : Program) (env : Environment) (random : RandomSource) :
    Except Error Evaluation × RandomSource :=
  State.run env { code := p.code, constants := p.constants, random }

end Program
end FormulaMachine
