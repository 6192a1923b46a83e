import FormulaMachine.Program.Run
import FormulaMachine.Word

/-!
Programs in the words of the machine that they run on. An address, the number of instructions to
skip and the number of constants that have been used are words, and sums of them may be too large for
one.
-/
namespace FormulaMachine.Program

/-- Refuses an instruction that leads beyond the `size` instructions of a program. -/
def checkTarget (o : Overflow) (size address : Nat) (op : Opcode) : Except Fault Unit :=
  match op.skip? with
  | none => .ok ()
  | some n => do
    let target ← o.add (← o.add address 1) n
    if size < target then .error (.error (damaged "JUMP OUT OF RANGE")) else .ok ()

/-- Checks instructions one after another; the first of them has the given address. -/
def checkTargets (o : Overflow) (size address : Nat) : List Opcode → Except Fault Unit
  | [] => .ok ()
  | op :: code => do
    checkTarget o size address op
    checkTargets o size (address + 1) code

def ofWords? (o : Overflow) (code : List Opcode) (constants : List Float) : Except Fault Program :=
  if code.countP Opcode.isNumber ≠ constants.length then
    .error (.error (damaged "CONSTANT POOL MISMATCH"))
  else do
    checkTargets o code.length 0 code
    return { code, constants }

/-- The instructions from one address up to another one, if both stand in the program in this
order. -/
def slice? (p : Program) (start stop : Nat) : Option (List Opcode) :=
  if start ≤ stop ∧ stop ≤ p.size then some ((p.code.drop start).take (stop - start)) else none

/-- The address of the instruction that comes next, the number of constants that have been used, and
what the run has come to. -/
structure Machine where
  pc : Nat := 0
  cursor : Nat := 0
  operands : Stack Float := noOperands
  sawNaN : Bool := false
  random : RandomSource

namespace Machine

inductive Move
  | next (m : Machine)
  | halt
  | fail (f : Fault) (random : RandomSource)

def fail (m : Machine) (e : Error) : Move := .fail (.error e) m.random

/-- What most instructions know of a run: neither the code nor the constants. -/
def scratch (m : Machine) : State :=
  { code := [], constants := [], operands := m.operands, sawNaN := m.sawNaN, random := m.random }

/-- Takes over what an instruction made of the scratch. -/
def settle (m : Machine) : Step → Move
  | .next s => .next { m with operands := s.operands, sawNaN := s.sawNaN, random := s.random }
  | .halt => .halt
  | .fail e random => .fail (.error e) random

/-- Skipped numbers take their constants with them. -/
def skip (o : Overflow) (p : Program) (m : Machine) (n : Nat) : Except Fault Machine := do
  match p.slice? m.pc (← o.add m.pc n) with
  | some skipped =>
    let cursor ← o.add m.cursor (skipped.countP Opcode.isNumber)
    let pc ← o.add m.pc n
    return { m with pc, cursor }
  | none => .error (.error (damaged "JUMP OUT OF RANGE"))

def moveTo (m : Machine) : Except Fault Machine → Move
  | .ok t => .next t
  | .error f => .fail f m.random

/-- Does an instruction that has been passed. -/
def perform (o : Overflow) (p : Program) (env : Environment) (m : Machine) : Opcode → Move
  | .number =>
    match p.constants[m.cursor]? with
    | some x => { m with cursor := m.cursor + 1 }.settle (m.scratch.push x)
    | none => m.fail (damaged "CONSTANT OUT OF RANGE")
  | .branch n =>
    match m.operands.pop with
    | (.ok x, operands) =>
      let m := { m with operands }
      if isTrue x then .next m else m.moveTo (m.skip o p n)
    | (.error e, _) => m.fail e
  | .jump n => m.moveTo (m.skip o p n)
  | op => m.settle (m.scratch.perform env op)

/-- An address of the code is no last word, so the one behind it is no sum to worry about. -/
def step (o : Overflow) (p : Program) (env : Environment) (m : Machine) : Move :=
  match p.code[m.pc]? with
  | none => .halt
  | some op => { m with pc := m.pc + 1 }.perform o p env op

variable {o : Overflow} {p : Program} {env : Environment} {m t : Machine}

theorem settle_next {s : Step} (h : m.settle s = .next t) : t.pc = m.pc := by
  unfold settle at h
  split at h
  · cases h; rfl
  · cases h
  · cases h

/-- Code is skipped forwards, because what is skipped is a part of the code. -/
theorem skip_pc_le {n : Nat} (h : m.moveTo (m.skip o p n) = .next t) : m.pc ≤ t.pc := by
  unfold skip at h
  cases hstop : o.add m.pc n with
  | error f => rw [hstop] at h; cases h
  | ok stop =>
    rw [hstop] at h
    by_cases hs : m.pc ≤ stop ∧ stop ≤ p.size
    · simp only [slice?, bind, Except.bind, if_pos hs] at h
      cases hc : o.add m.cursor (((p.code.drop m.pc).take (stop - m.pc)).countP Opcode.isNumber) with
      | error f => rw [hc] at h; cases h
      | ok cursor =>
        rw [hc] at h
        cases h
        exact hs.1
    · simp only [slice?, bind, Except.bind, if_neg hs] at h
      cases h

theorem perform_pc_le {op : Opcode} (h : m.perform o p env op = .next t) : m.pc ≤ t.pc := by
  cases op with
  | number =>
    rw [perform] at h
    split at h
    · exact Nat.le_of_eq (settle_next h).symm
    · cases h
  | branch n =>
    rw [perform] at h
    split at h
    · next operands _ =>
      dsimp only at h
      split at h
      · cases h; exact Nat.le_refl _
      · exact skip_pc_le (m := { m with operands }) h
    · cases h
  | jump n => exact skip_pc_le h
  | endIf => exact Nat.le_of_eq (settle_next (s := m.scratch.perform env .endIf) h).symm
  | pi | euler | var | ref | negate | binary | call | call₂ =>
    have h : m.settle (m.scratch.perform env _) = .next t := h
    exact Nat.le_of_eq (settle_next h).symm

theorem step_pc_lt (h : m.step o p env = .next t) : p.size - t.pc < p.size - m.pc := by
  unfold step at h
  split at h
  · cases h
  · next op hop =>
    have hlt : m.pc < p.size := (List.getElem?_eq_some_iff.mp hop).1
    have hle := perform_pc_le h
    simp only at hle
    omega

/-- Runs the program to its end. The random source is as the run leaves it, also after an error. -/
def run (o : Overflow) (p : Program) (env : Environment) (m : Machine) :
    Except Fault Evaluation × RandomSource :=
  match _h : m.step o p env with
  | .halt => (m.scratch.finish.mapError .error, m.random)
  | .fail f random => (.error f, random)
  | .next t => t.run o p env
termination_by p.size - m.pc
decreasing_by exact step_pc_lt ‹_›

end Machine

def runWords (p : Program) (o : Overflow) (env : Environment) (random : RandomSource) :
    Except Fault Evaluation × RandomSource :=
  Machine.run o p env { random }

end FormulaMachine.Program
