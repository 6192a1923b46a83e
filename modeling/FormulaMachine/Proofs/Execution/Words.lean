import FormulaMachine.Program.Words
import FormulaMachine.Proofs.Execution.Placement

/-!
Runs in words. A machine that stands at an address with its constants counted does what is done with
the code and the constants that are left. Its sums are exact, unless a sum that is no word is let
wrap; then it shows a place that has been passed, which is refused as well.
-/
namespace FormulaMachine

namespace Overflow

variable {o : Overflow} {a b : Nat}

theorem add_of_lt (h : a + b < UInt64.size) : o.add a b = .ok (a + b) := if_pos h

theorem panics_add_of_le (h : UInt64.size ≤ a + b) : panics.add a b = .error .panic :=
  if_neg (Nat.not_lt.mpr h)

theorem wraps_add_of_le (h : UInt64.size ≤ a + b) : wraps.add a b = .ok (a + b - UInt64.size) :=
  if_neg (Nat.not_lt.mpr h)

end Overflow

namespace Program

variable {o : Overflow} {p : Program} {env : Environment} {random : RandomSource} {m t : Machine}
  {n k : Nat} {op : Opcode} {code : List Opcode}

/-- The length of the code is a word, and so is each number of instructions to skip. -/
structure OfWords (code : List Opcode) : Prop where
  length_lt : code.length < UInt64.size
  skip_lt : ∀ op ∈ code, ∀ n, op.skip? = some n → n < UInt64.size

/-- The instruction at an address may lead to another one, which is told by the exact sum. -/
def HasTarget (code : List Opcode) (address target : Nat) : Prop :=
  ∃ op n, code[address]? = some op ∧ op.skip? = some n ∧ target = address + 1 + n

/-- A program whose runs are told by exact sums: only where sums wrap may one of them be too large
for a word. -/
structure Runnable (o : Overflow) (p : Program) : Prop where
  numbers : p.code.countP Opcode.isNumber = p.constants.length
  words : OfWords p.code
  sums : o = .wraps ∨ ∀ a b, HasTarget p.code a b → b < UInt64.size

namespace Machine

/-- The code and the constants that are left to a machine, and what it has come to. -/
def state (p : Program) (m : Machine) : State where
  code := p.code.drop m.pc
  constants := p.constants.drop m.cursor
  operands := m.operands
  sawNaN := m.sawNaN
  random := m.random

/-- The machine stands in the program, and as many constants have been used as there are numbers
below it. -/
structure Stands (p : Program) (m : Machine) : Prop where
  pc_le : m.pc ≤ p.size
  cursor_eq : m.cursor = (p.code.take m.pc).countP Opcode.isNumber

/-- What a machine does is what is done with the code and the constants that are left. -/
inductive Follows (p : Program) : Move → Step → Prop
  | next {t : Machine} : t.Stands p → Follows p (.next t) (.next (t.state p))
  | halt : Follows p .halt .halt
  | fail {e : Error} {random : RandomSource} : Follows p (.fail (.error e) random) (.fail e random)

theorem follows_settle {s : Step} (hm : m.Stands p)
    (hs : ∀ t, s = .next t → t.code = [] ∧ t.constants = []) :
    Follows p (m.settle s) (s.followedBy (m.state p).rest) := by
  cases s with
  | next t =>
    obtain ⟨hcode, hconstants⟩ := hs t rfl
    obtain ⟨code, constants, operands, sawNaN, random⟩ := t
    cases hcode
    cases hconstants
    exact .next (t := { m with operands, sawNaN, random }) ⟨hm.pc_le, hm.cursor_eq⟩
  | halt => exact .halt
  | fail e random => exact .fail

theorem follows_push (hm : m.Stands p) (x : Float) :
    Follows p (m.settle (m.scratch.push x)) ((m.state p).push x) := by
  have hpush := State.push_followedBy (s := m.scratch) (f := (m.state p).rest) (x := x)
  change Follows p _ ((m.scratch.followedBy (m.state p).rest).push x)
  rw [hpush]
  refine follows_settle hm fun t ht => ?_
  have hk := State.passes_push ht
  exact ⟨hk.code, hk.constants⟩

theorem scratch_next {t : State} (hop : op ≠ .number) (h : m.scratch.perform env op = .next t) :
    t.code = [] ∧ t.constants = [] := by
  obtain ⟨k, hk⟩ := State.passes_perform hop h
  exact ⟨hk.code.trans List.drop_nil, hk.constants.trans List.drop_nil⟩

/-- An instruction that neither loads a constant nor skips anything looks at the scratch alone. -/
theorem follows_scratch (hm : m.Stands p) (hop : op ≠ .number) (hn : op.skip? = none) :
    Follows p (m.settle (m.scratch.perform env op)) ((m.state p).perform env op) := by
  change Follows p _ ((m.scratch.followedBy (m.state p).rest).perform env op)
  rw [State.perform_followedBy hop rfl fun n h => by rw [hn] at h; cases h]
  exact follows_settle hm fun t ht => scratch_next hop ht

theorem Stands.pass (hm : m.Stands p) {c : Nat} (hk : m.pc + k ≤ p.size)
    (hc : c = ((p.code.drop m.pc).take k).countP Opcode.isNumber) :
    Stands p { m with pc := m.pc + k, cursor := m.cursor + c } where
  pc_le := hk
  cursor_eq := by
    rw [hc, hm.cursor_eq, List.take_add, List.countP_append]

/-- A sum that wraps shows a place that has been passed, and code that lies behind is no part of the
program. -/
theorem skip_of_le (hn : n < UInt64.size) (h : UInt64.size ≤ m.pc + n) :
    m.skip .wraps p n = .error (.error (damaged "JUMP OUT OF RANGE")) := by
  have hs : ¬(m.pc ≤ m.pc + n - UInt64.size ∧ m.pc + n - UInt64.size ≤ p.size) := by omega
  simp only [skip, Overflow.wraps_add_of_le h, slice?, bind, Except.bind, if_neg hs]

theorem skip_of_size_lt (h : m.pc + n < UInt64.size) (hn : p.size < m.pc + n) :
    m.skip o p n = .error (.error (damaged "JUMP OUT OF RANGE")) := by
  have hs : ¬(m.pc ≤ m.pc + n ∧ m.pc + n ≤ p.size) := by omega
  simp only [skip, Overflow.add_of_lt h, slice?, bind, Except.bind, if_neg hs]

theorem skip_of_le_size (hr : Runnable o p) (hm : m.Stands p) (hn : m.pc + n ≤ p.size) :
    m.skip o p n = .ok { m with
      pc := m.pc + n
      cursor := m.cursor + ((p.code.drop m.pc).take n).countP Opcode.isNumber } := by
  have hsize : p.size < UInt64.size := hr.words.length_lt
  have hs : m.pc ≤ m.pc + n ∧ m.pc + n ≤ p.size := ⟨Nat.le_add_right _ _, hn⟩
  have hcursor : m.cursor + ((p.code.drop m.pc).take n).countP Opcode.isNumber < UInt64.size := by
    have hle : (p.code.take (m.pc + n)).length ≤ p.size :=
      (List.take_sublist (m.pc + n) p.code).length_le
    have hcount : (p.code.take (m.pc + n)).countP Opcode.isNumber ≤ p.size :=
      Nat.le_trans List.countP_le_length hle
    rw [← (hm.pass hn rfl).cursor_eq] at hcount
    exact Nat.lt_of_le_of_lt hcount hsize
  simp only [skip, Overflow.add_of_lt (Nat.lt_of_le_of_lt hn hsize), slice?, bind, Except.bind,
    if_pos hs, Nat.add_sub_cancel_left, Overflow.add_of_lt hcursor]
  rfl

theorem follows_skip (hr : Runnable o p) (hm : m.Stands p) (hn : n < UInt64.size)
    (hsum : o = .wraps ∨ m.pc + n < UInt64.size) :
    Follows p (m.moveTo (m.skip o p n)) ((m.state p).skip n) := by
  have hpc := hm.pc_le
  have hsize : p.size < UInt64.size := hr.words.length_lt
  have hlength : (m.state p).code.length = p.size - m.pc := List.length_drop
  by_cases hle : m.pc + n ≤ p.size
  · have hfits : n ≤ (m.state p).code.length := by omega
    rw [skip_of_le_size hr hm hle, State.skip, if_pos hfits]
    have hnext := Follows.next (hm.pass hle rfl)
    simpa only [moveTo, state, List.drop_drop] using hnext
  · have hfits : ¬n ≤ (m.state p).code.length := by omega
    have hfail : m.skip o p n = .error (.error (damaged "JUMP OUT OF RANGE")) := by
      by_cases h : m.pc + n < UInt64.size
      · exact skip_of_size_lt h (by omega)
      · obtain rfl | hlt := hsum
        · exact skip_of_le hn (Nat.le_of_not_lt h)
        · exact absurd hlt h
    rw [hfail, State.skip, if_neg hfits]
    exact .fail

theorem follows_perform (hr : Runnable o p) (hm : m.Stands p) (hop : op ≠ .number)
    (hskip : ∀ n, op.skip? = some n → n < UInt64.size ∧ (o = .wraps ∨ m.pc + n < UInt64.size)) :
    Follows p (m.perform o p env op) ((m.state p).perform env op) := by
  cases op with
  | number => exact absurd rfl hop
  | jump n => exact follows_skip hr hm (hskip n rfl).1 (hskip n rfl).2
  | branch n =>
    have ho : (m.state p).operands = m.operands := rfl
    rw [perform, State.perform, State.pop, ho]
    obtain ⟨e | x, operands⟩ := m.operands.pop
    · exact .fail
    · have hm' : Stands p { m with operands } := ⟨hm.pc_le, hm.cursor_eq⟩
      dsimp only
      split
      · exact .next hm'
      · exact follows_skip hr hm' (hskip n rfl).1 (hskip n rfl).2
  | endIf => exact .next (t := m) hm
  | pi | euler | var | ref | negate | binary | call | call₂ => exact follows_scratch hm hop rfl

/-- One step of the machine is one step of what is left. -/
theorem follows_step (hr : Runnable o p) (hm : m.Stands p) (env : Environment) :
    Follows p (m.step o p env) ((m.state p).step env) := by
  cases hop : p.code[m.pc]? with
  | none =>
    have hcode : (m.state p).code = [] :=
      List.drop_eq_nil_iff.mpr (List.getElem?_eq_none_iff.mp hop)
    simp only [step, hop, State.step, hcode]
    exact .halt
  | some op =>
    obtain ⟨hlt, hget⟩ := List.getElem?_eq_some_iff.mp hop
    have hcode : (m.state p).code = op :: p.code.drop (m.pc + 1) := by
      rw [← hget]
      exact List.drop_eq_getElem_cons hlt
    have hcount : (p.code.take (m.pc + 1)).countP Opcode.isNumber =
        m.cursor + [op].countP Opcode.isNumber := by
      rw [List.take_add_one, hop, List.countP_append, hm.cursor_eq]
      rfl
    simp only [step, hop, State.step, hcode]
    by_cases hnumber : op = .number
    · subst hnumber
      have hm' : Stands p { m with pc := m.pc + 1, cursor := m.cursor + 1 } := ⟨hlt, hcount.symm⟩
      have hhead : (m.state p).constants.head? = p.constants[m.cursor]? := List.head?_drop
      rw [perform, State.perform, hhead]
      cases p.constants[m.cursor]? with
      | none => exact .fail
      | some x =>
        have htail : (m.state p).constants.tail = p.constants.drop (m.cursor + 1) := List.tail_drop
        rw [htail]
        exact follows_push hm' x
    · have hm' : Stands p { m with pc := m.pc + 1 } := by
        refine ⟨hlt, ?_⟩
        rw [hcount, List.countP_singleton, isNumber_of_ne hnumber]
        rfl
      refine follows_perform hr hm' hnumber fun n hn => ⟨?_, ?_⟩
      · exact hr.words.skip_lt op (List.mem_of_getElem? hop) n hn
      · exact hr.sums.imp_right fun h => h m.pc _ ⟨op, n, hop, hn, rfl⟩

/-! ### Runs -/

theorem run_next (h : m.step o p env = .next t) : m.run o p env = t.run o p env := by
  rw [run]
  split <;> simp_all

theorem run_fail {f : Fault} (h : m.step o p env = .fail f random) :
    m.run o p env = (.error f, random) := by
  rw [run]
  split <;> simp_all

theorem run_halt (h : m.step o p env = .halt) :
    m.run o p env = (m.scratch.finish.mapError .error, m.random) := by
  rw [run]
  split <;> simp_all

theorem run_eq {m : Machine} (hr : Runnable o p) (hm : m.Stands p) : m.run o p env =
    (((m.state p).run env).1.mapError .error, ((m.state p).run env).2) := by
  have hs := follows_step hr hm env
  generalize hstep : m.step o p env = move, hstep' : (m.state p).step env = step at hs
  cases hs with
  | halt => rw [run_halt hstep, State.run_halt hstep']; rfl
  | fail => rw [run_fail hstep, State.run_fail hstep']; rfl
  | next ht => rw [run_next hstep, State.run_next hstep', run_eq hr ht]
termination_by p.size - m.pc
decreasing_by exact step_pc_lt hstep

end Machine

/-- The machines of a run, each with how many instructions have been done before it. -/
inductive ReachesWords (p : Program) (o : Overflow) (env : Environment) (random : RandomSource) :
    Nat → Machine → Prop
  | start : ReachesWords p o env random 0 { random }
  | step {n : Nat} {m t : Machine} : ReachesWords p o env random n m → m.step o p env = .next t →
      ReachesWords p o env random (n + 1) t

theorem stands_start : Machine.Stands p { random } := ⟨Nat.zero_le _, rfl⟩

theorem ReachesWords.reaches (hr : Runnable o p) (h : p.ReachesWords o env random k m) :
    m.Stands p ∧ p.Reaches env random k (m.state p) := by
  induction h with
  | start => exact ⟨stands_start, .start⟩
  | step _ hstep ih =>
    have hs := Machine.follows_step hr ih.1 env
    generalize hstep' : (Machine.state p _).step env = step at hs
    rw [hstep] at hs
    cases hs with
    | next ht => exact ⟨ht, ih.2.step hstep'⟩

theorem Reaches.exists_reachesWords {s : State} (hr : Runnable o p) (h : p.Reaches env random k s) :
    ∃ m, p.ReachesWords o env random k m ∧ m.state p = s := by
  induction h with
  | start => exact ⟨_, .start, rfl⟩
  | step _ hstep ih =>
    obtain ⟨m, hm, rfl⟩ := ih
    have hs := Machine.follows_step hr (hm.reaches hr).1 env
    generalize hstep' : m.step o p env = move at hs
    rw [hstep] at hs
    cases hs with
    | next ht => exact ⟨_, hm.step hstep', rfl⟩

theorem ReachesWords.run_eq (h : p.ReachesWords o env random k m) :
    p.runWords o env random = m.run o p env := by
  induction h with
  | start => rfl
  | step _ hstep ih => exact ih.trans (Machine.run_next hstep)

/-- A run in words comes to what the run of the code comes to. -/
theorem runWords_eq (hr : Runnable o p) (env : Environment) (random : RandomSource) :
    p.runWords o env random = ((p.run env random).1.mapError .error, (p.run env random).2) :=
  Machine.run_eq hr stands_start

end Program
end FormulaMachine
