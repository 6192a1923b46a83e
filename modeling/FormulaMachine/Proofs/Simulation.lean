import FormulaMachine.Proofs.Code
import FormulaMachine.Proofs.Evaluation

/-!
The machine does what the evaluation by recursion does. The code of an expression may stand in front
of any other code and above any operands, which is what the induction is about.
-/
namespace FormulaMachine

namespace Program.State

variable {env : Environment} {s t : State}

theorem run_next (h : s.step env = .next t) : s.run env = t.run env := by
  rw [run]
  split <;> simp_all

theorem run_fail {e : Error} {random : RandomSource} (h : s.step env = .fail e random) :
    s.run env = (.error e, random) := by
  rw [run]
  split <;> simp_all

theorem run_halt (h : s.step env = .halt) : s.run env = (s.finish, s.random) := by
  rw [run]
  split <;> simp_all

end Program.State

/-- The state of a machine that has come to the given code, constants and operands. -/
def Program.State.of (code : List Opcode) (constants items : List Float) (c : Course) : State where
  code := code
  constants := constants
  operands := { noOperands with items }
  sawNaN := c.sawNaN
  random := c.random

/-- What the machine makes of the given code, constants and operands. -/
def Program.resume (env : Environment) (code : List Opcode) (constants items : List Float)
    (c : Course) : Except Error Evaluation × RandomSource :=
  (State.of code constants items c).run env

/-- An evaluation, and what is made of its value. -/
def Evaluator.andThen {α : Type} (m : Evaluator α)
    (k : α → Course → Except Error Evaluation × RandomSource) (c : Course) :
    Except Error Evaluation × RandomSource :=
  match m c with
  | (.error e, c) => (.error e, c.random)
  | (.ok a, c) => k a c

namespace Evaluator

variable {α β : Type} {m : Evaluator α}
  {k l : α → Course → Except Error Evaluation × RandomSource} {c : Course}

theorem bind_andThen (f : α → Evaluator β)
    (k : β → Course → Except Error Evaluation × RandomSource) :
    (m >>= f).andThen k c = m.andThen (fun a => (f a).andThen k) c := by
  simp only [andThen]
  simp only [bind]
  rcases m c with ⟨e | a, d⟩ <;> rfl

theorem andThen_congr (h : ∀ a d, m c = (.ok a, d) → k a d = l a d) :
    m.andThen k c = m.andThen l c := by
  simp only [andThen]
  split
  · rfl
  · next a d hm => exact h a d hm

end Evaluator

namespace Program

variable {env : Environment} {op : Opcode} {code : List Opcode}
  {constants constants' items items' : List Float} {c c' : Course} {x y : Float}

theorem push_of : (State.of code constants items c).push x =
    if maxOperands ≤ items.length then .fail .overflow c.random
    else .next (.of code constants (x :: items) (c.note x)) := by
  by_cases h : maxOperands ≤ items.length
  · simp [State.push, State.of, Stack.push, Stack.isFull, Stack.height, noOperands, h, State.fail,
      Error.overflow]
  · simp [State.push, State.of, Stack.push, Stack.isFull, Stack.height, noOperands, h, Course.note]

theorem resume_push (h : (State.of (op :: code) constants items c).step env =
      (State.of code constants' items' c').push x) :
    resume env (op :: code) constants items c =
      if maxOperands ≤ items'.length then (.error .overflow, c'.random)
      else resume env code constants' (x :: items') (c'.note x) := by
  rw [push_of] at h
  simp only [resume]
  split at h
  · next hf => rw [if_pos hf, State.run_fail h]
  · next hf => rw [if_neg hf, State.run_next h]

theorem step_operand {o : Operand} (hb : o.Bound env) : ∃ op, o.fragment.code = [op] ∧
    (State.of (op :: code) (o.fragment.constants ++ constants) items c).step env =
      (State.of code constants items c).push (o.value env) := by
  cases o with
  | literal x => exact ⟨.number, rfl, rfl⟩
  | pi => exact ⟨.pi, rfl, rfl⟩
  | euler => exact ⟨.euler, rfl, rfl⟩
  | var index =>
    refine ⟨.var index, rfl, ?_⟩
    change (State.of code constants items c).load env.vars[index]? _ = _
    have hb : index < env.vars.length := hb
    simp [State.load, Operand.value, hb]
  | ref index =>
    refine ⟨.ref index, rfl, ?_⟩
    change (State.of code constants items c).load env.refs[index]? _ = _
    have hb : index < env.refs.length := hb
    simp [State.load, Operand.value, hb]

theorem resume_operand {o : Operand} (hb : o.Bound env) (column : Column) :
    resume env (o.fragment.code ++ code) (o.fragment.constants ++ constants) items c =
      ((Expr.operand column o).eval env items.length).andThen
        (fun x => resume env code constants (x :: items)) c := by
  obtain ⟨op, hc, hs⟩ := step_operand hb
  rw [hc, List.singleton_append, resume_push hs]
  by_cases h : maxOperands ≤ items.length
  · simp [Expr.eval, h, Evaluator.andThen, Evaluator.fail]
  · simp [Expr.eval, h, Evaluator.andThen, Evaluator.produce]

/-- Below the limit, an instruction that ends with a push is a value like any other. -/
theorem resume_produce (hi : items'.length < maxOperands)
    (h : (State.of (op :: code) constants items c).step env =
      (State.of code constants items' c').push x) :
    resume env (op :: code) constants items c =
      (Evaluator.produce x).andThen (fun y => resume env code constants (y :: items')) c' := by
  rw [resume_push h, if_neg (Nat.not_le.mpr hi)]
  rfl

theorem resume_call {f : UnaryFunction} (hi : items.length < maxOperands) :
    resume env (.call f :: code) constants (x :: items) c =
      (Evaluator.call f x).andThen (fun y => resume env code constants (y :: items)) c :=
  resume_produce (c := c) hi rfl

theorem resume_branch {n : Nat} (hn : n ≤ code.length) :
    resume env (.branch n :: code) constants (x :: items) c =
      if isTrue x then resume env code constants items c
      else resume env (code.drop n) (constants.drop ((code.take n).countP Opcode.isNumber))
        items c := by
  split
  · next hx =>
    refine State.run_next ?_
    simp [State.step, State.of, State.perform, State.pop, Stack.pop, hx]
  · next hx =>
    refine State.run_next ?_
    simp [State.step, State.of, State.perform, State.pop, Stack.pop, hx, State.skip, hn]

theorem resume_jump {n : Nat} (hn : n ≤ code.length) :
    resume env (.jump n :: code) constants items c =
      resume env (code.drop n) (constants.drop ((code.take n).countP Opcode.isNumber))
        items c := by
  refine State.run_next ?_
  simp [State.step, State.of, State.perform, State.skip, hn]

theorem resume_endIf :
    resume env (.endIf :: code) constants items c = resume env code constants items c :=
  State.run_next rfl

theorem resume_nil {x : Float} :
    resume env [] constants [x] c =
      (.ok { value := if c.sawNaN then 0 else x, sawNaN := c.sawNaN }, c.random) :=
  State.run_halt rfl

/-- A branch that is not taken leaves out the jump behind the code, too, and the constants. -/
theorem resume_choice {yes : Fragment} (hy : yes.Sound) {n : Nat} :
    resume env (.branch (yes.size + 1) :: (yes.code ++ .jump n :: code))
        (yes.constants ++ constants) (x :: items) c =
      if isTrue x then
        resume env (yes.code ++ .jump n :: code) (yes.constants ++ constants) items c
      else resume env code constants items c := by
  have ht : yes.code.take (yes.code.length + 1) = yes.code := List.take_of_length_le (by omega)
  rw [resume_branch (by simp [Fragment.size])]
  congr 2
  · simp [Fragment.size, List.drop_append]
  · simp [Fragment.size, List.take_append, ht, Opcode.isNumber, hy.numbers]

theorem resume_jump_over {no : Fragment} (hn : no.Sound) :
    resume env (.jump no.size :: (no.code ++ .endIf :: code)) (no.constants ++ constants) items c =
      resume env code constants items c := by
  rw [resume_jump (by simp [Fragment.size])]
  simp [Fragment.size, hn.numbers, resume_endIf]

/-- The code of an expression, run anywhere, puts the value of the expression on the stack. -/
theorem resume_piece {e : Expr} {ceiling pending used : Nat} {p : Piece}
    (h : e.piece? ceiling pending used = .ok p) (hb : e.Bound env) :
    resume env (p.fragment.code ++ code) (p.fragment.constants ++ constants) items c =
      (e.eval env items.length).andThen (fun x => resume env code constants (x :: items)) c := by
  induction e generalizing pending used p code constants items c with
  | operand column o =>
    rw [Expr.piece?_operand h]
    exact resume_operand (Expr.bound_operand.mp hb) column
  | negation column x ih =>
    obtain ⟨a, ha, -, rfl⟩ := Expr.piece?_negation h
    simp only [Fragment.push, List.append_assoc, List.singleton_append]
    rw [ih ha hb, Expr.eval, Evaluator.bind_andThen]
    apply Evaluator.andThen_congr
    intro v d hv
    exact resume_produce (Expr.height_lt_of_eval hv) rfl
  | call column f x ih =>
    obtain ⟨a, ha, -, rfl⟩ := Expr.piece?_call h
    simp only [Fragment.push, List.append_assoc, List.singleton_append]
    rw [ih ha hb, Expr.eval, Evaluator.bind_andThen]
    apply Evaluator.andThen_congr
    intro v d hv
    exact resume_call (Expr.height_lt_of_eval hv)
  | binary column op x y ihx ihy =>
    obtain ⟨a, b, ha, hb', -, -, rfl⟩ := Expr.piece?_binary h
    obtain ⟨hx, hy⟩ := Expr.bound_binary.mp hb
    simp only [Fragment.push, Fragment.append_code, Fragment.append_constants, List.append_assoc,
      List.singleton_append]
    rw [ihx ha hx, Expr.eval, Evaluator.bind_andThen]
    apply Evaluator.andThen_congr
    intro v d hv
    rw [ihy hb' hy, Evaluator.bind_andThen]
    apply Evaluator.andThen_congr
    intro w d' hw
    exact resume_produce (Expr.height_lt_of_eval hv) rfl
  | call₂ column f x y ihx ihy =>
    obtain ⟨a, b, ha, hb', -, -, rfl⟩ := Expr.piece?_call₂ h
    obtain ⟨hx, hy⟩ := Expr.bound_call₂.mp hb
    simp only [Fragment.push, Fragment.append_code, Fragment.append_constants, List.append_assoc,
      List.singleton_append]
    rw [ihx ha hx, Expr.eval, Evaluator.bind_andThen]
    apply Evaluator.andThen_congr
    intro v d hv
    rw [ihy hb' hy, Evaluator.bind_andThen]
    apply Evaluator.andThen_congr
    intro w d' hw
    exact resume_produce (Expr.height_lt_of_eval hv) rfl
  | choice column x y z ihx ihy ihz =>
    obtain ⟨a, b, c, ha, hb', hc, -, rfl⟩ := Expr.piece?_choice h
    obtain ⟨⟨hx, hy⟩, hz⟩ := Expr.bound_choice.mp hb
    simp only [Fragment.pushChoice_code, Fragment.pushChoice_constants, List.append_assoc,
      List.cons_append, List.nil_append]
    rw [ihx ha hx, Expr.eval, Evaluator.bind_andThen]
    apply Evaluator.andThen_congr
    intro v d hv
    rw [resume_choice (Expr.piece?_sound hb')]
    -- Either way the code behind the choice is reached with one value more.
    split
    · next ht =>
      rw [ihy hb' hy]
      exact Evaluator.andThen_congr fun w d' _ => resume_jump_over (Expr.piece?_sound hc)
    · next ht =>
      rw [ihz hc hz]
      exact Evaluator.andThen_congr fun w d' _ => resume_endIf

theorem run_of_piece? {e : Expr} {ceiling : Nat} {p : Piece}
    (h : e.piece? ceiling 0 0 = .ok p) (hb : e.Bound env) (random : RandomSource) :
    ({ code := p.fragment.code, constants := p.fragment.constants } : Program).run env random =
      e.evaluate env random := by
  have hr : resume env (p.fragment.code ++ []) (p.fragment.constants ++ []) [] { random } =
      (e.eval env 0).andThen (fun x => resume env [] [] [x]) { random } := resume_piece h hb
  rw [List.append_nil, List.append_nil] at hr
  refine hr.trans ?_
  unfold Evaluator.andThen Expr.evaluate
  split <;> simp_all [resume_nil]

end Program

namespace Expr

/-- The program of an expression runs as the expression evaluates: to the same value or error, with
the same mark of a NaN, and with the same draws. -/
theorem run_eq_evaluate {e : Expr} {ceiling : Nat} {p : Program} {env : Environment}
    (h : e.toProgram? ceiling = .ok p) (hb : e.Bound env) (random : RandomSource) :
    p.run env random = e.evaluate env random := by
  obtain ⟨a, ha, rfl⟩ := piece?_of_toProgram? h
  exact Program.run_of_piece? ha hb random

/-- The constant of the side that is not taken is left out. -/
theorem run_eq_evaluate_untaken : ∃ e p,
    e = choice ⟨0, 2⟩ (operand ⟨3, 4⟩ (.var 0)) (operand ⟨6, 7⟩ (.literal 2))
      (operand ⟨9, 10⟩ (.literal 3)) ∧
    e.toProgram? 2 = .ok p ∧
    p.run { vars := [0] } (.cycle []) = e.evaluate { vars := [0] } (.cycle []) := by
  have hp : (choice ⟨0, 2⟩ (operand ⟨3, 4⟩ (.var 0)) (operand ⟨6, 7⟩ (.literal 2))
      (operand ⟨9, 10⟩ (.literal 3))).toProgram? 2 = .ok _ := rfl
  refine ⟨_, _, rfl, hp, run_eq_evaluate hp ?_ _⟩
  simp [Bound, operands, Operand.Bound]

end Expr
end FormulaMachine
