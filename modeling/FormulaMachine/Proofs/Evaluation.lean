import FormulaMachine.Expr
import FormulaMachine.Program.Run

/-!
Evaluation of expressions by recursion. Nothing is stacked: an operand only knows how many values
wait for it.
-/
namespace FormulaMachine

/-- The value is no NaN, and zero where one was met. -/
structure Evaluation.Settled (r : Evaluation) : Prop where
  not_isNaN : r.value.isNaN = false
  eq_zero : r.sawNaN = true → r.value = 0

theorem Evaluation.Settled.zero : Settled { value := 0, sawNaN := true } :=
  ⟨by decide, fun _ => rfl⟩

/-- What an evaluation leaves behind besides its value. -/
structure Course where
  sawNaN : Bool := false
  random : RandomSource

/-- Every value that comes up is looked at for being a NaN. -/
def Course.note (c : Course) (x : Float) : Course := { c with sawNaN := c.sawNaN || x.isNaN }

/-- An error, too, leaves the course that the evaluation took up to it. -/
def Evaluator (α : Type) : Type := Course → Except Error α × Course

namespace Evaluator

variable {α β : Type}

instance : Monad Evaluator where
  pure a c := (.ok a, c)
  bind m f c :=
    match m c with
    | (.error e, c) => (.error e, c)
    | (.ok a, c) => f a c

def fail (e : Error) : Evaluator α := fun c => (.error e, c)

def produce (x : Float) : Evaluator Float := fun c => (.ok x, c.note x)

def call (f : UnaryFunction) (x : Float) : Evaluator Float := fun c =>
  let (y, random) := f.apply x c.random
  produce y { c with random }

theorem isNaN_of_produce {x y : Float} {c d : Course} (h : produce x c = (.ok y, d))
    (hd : d.sawNaN = false) : y.isNaN = false := by
  cases h
  exact (Bool.or_eq_false_iff.mp hd).2

theorem bind_ok {m : Evaluator α} {f : α → Evaluator β} {b : β} {c d : Course}
    (h : (m >>= f) c = (.ok b, d)) : ∃ a c', m c = (.ok a, c') ∧ f a c' = (.ok b, d) := by
  simp only [bind] at h
  split at h
  · cases h
  · next a c' hm => exact ⟨a, c', hm, h⟩

theorem bind_error {m : Evaluator α} {f : α → Evaluator β} {e : Error} {c d : Course}
    (h : (m >>= f) c = (.error e, d)) :
    m c = (.error e, d) ∨ ∃ a c', m c = (.ok a, c') ∧ f a c' = (.error e, d) := by
  simp only [bind] at h
  split at h
  · next e' c' hm =>
    cases h
    exact .inl hm
  · next a c' hm => exact .inr ⟨a, c', hm, h⟩

end Evaluator

namespace Operand

def value (env : Environment) : Operand → Float
  | literal x => x
  | pi => 3.141592653589793
  | euler => 2.718281828459045
  | var index => env.vars.getD index 0
  | ref index => env.refs.getD index 0

/-- A place in the list of variables or of references has to be taken. -/
def Bound (env : Environment) : Operand → Prop
  | var index => index < env.vars.length
  | ref index => index < env.refs.length
  | _ => True

end Operand

/-- More operands would wait than are allowed to. -/
def Error.overflow : Error := { kind := .stackOverflow, detail := "OPERAND STACK FULL" }

namespace Expr

/-- The operands from left to right. -/
def operands : Expr → List Operand
  | operand _ o => [o]
  | call _ _ x | negation _ x => x.operands
  | call₂ _ _ x y | binary _ _ x y => x.operands ++ y.operands
  | choice _ condition yes no => condition.operands ++ yes.operands ++ no.operands

def Bound (env : Environment) (e : Expr) : Prop := ∀ o ∈ e.operands, o.Bound env

section
variable {env : Environment} {c : Column} {x y z : Expr}

theorem bound_operand {o : Operand} : (operand c o).Bound env ↔ o.Bound env := by
  simp [Bound, operands]

theorem bound_call₂ {f : BinaryFunction} :
    (call₂ c f x y).Bound env ↔ x.Bound env ∧ y.Bound env :=
  List.forall_mem_append

theorem bound_binary {op : Operator} :
    (binary c op x y).Bound env ↔ x.Bound env ∧ y.Bound env :=
  List.forall_mem_append

theorem bound_choice : (choice c x y z).Bound env ↔ (x.Bound env ∧ y.Bound env) ∧ z.Bound env :=
  List.forall_mem_append.trans (and_congr_left' List.forall_mem_append)

end

/-- The value of an expression while `height` values wait for it. Both sides of an operator are
evaluated, whatever the left one is, but only one side of a choice. -/
def eval (env : Environment) (height : Nat) : Expr → Evaluator Float
  | operand _ o =>
    if Program.maxOperands ≤ height then .fail .overflow else .produce (o.value env)
  | call _ f x => do .call f (← x.eval env height)
  | call₂ _ f x y => do
    let a ← x.eval env height
    let b ← y.eval env (height + 1)
    .produce (f.apply a b)
  | choice _ condition yes no => do
    if isTrue (← condition.eval env height) then yes.eval env height else no.eval env height
  | negation _ x => do .produce (-(← x.eval env height))
  | binary _ op x y => do
    let a ← x.eval env height
    let b ← y.eval env (height + 1)
    .produce (op.apply a b)

/-- The value of a whole expression is zero where a NaN was met on the way. -/
def evaluate (e : Expr) (env : Environment) (random : RandomSource) :
    Except Error Evaluation × RandomSource :=
  match e.eval env 0 { random } with
  | (.error error, c) => (.error error, c.random)
  | (.ok x, c) => (.ok { value := if c.sawNaN then 0 else x, sawNaN := c.sawNaN }, c.random)

/-- The leftmost operand is met at the height of the whole. -/
theorem height_lt_of_eval {env : Environment} {e : Expr} {height : Nat} {c d : Course} {x : Float}
    (h : e.eval env height c = (.ok x, d)) : height < Program.maxOperands := by
  induction e generalizing c d x with
  | operand column o =>
    by_cases hf : Program.maxOperands ≤ height
    · simp [eval, hf, Evaluator.fail] at h
    · omega
  | call _ f y ih | negation _ y ih =>
    obtain ⟨a, c', ha, _⟩ := Evaluator.bind_ok h
    exact ih ha
  | call₂ _ f y z ih _ | binary _ f y z ih _ =>
    obtain ⟨a, c', ha, _⟩ := Evaluator.bind_ok h
    exact ih ha
  | choice _ condition yes no ih _ _ =>
    obtain ⟨a, c', ha, _⟩ := Evaluator.bind_ok h
    exact ih ha

/-- Nothing but the height of the operands can go wrong. -/
theorem eval_error {env : Environment} {e : Expr} {height : Nat} {c d : Course} {error : Error}
    (h : e.eval env height c = (.error error, d)) : error = .overflow := by
  induction e generalizing height c d with
  | operand column o =>
    rw [eval] at h
    split at h
    · cases h
      rfl
    · cases h
  | negation column x ih | call column f x ih =>
    rcases Evaluator.bind_error h with h | ⟨_, _, _, h⟩
    · exact ih h
    · cases h
  | binary column op x y ihx ihy | call₂ column f x y ihx ihy =>
    rcases Evaluator.bind_error h with h | ⟨_, _, _, h⟩
    · exact ihx h
    · rcases Evaluator.bind_error h with h | ⟨_, _, _, h⟩
      · exact ihy h
      · cases h
  | choice column x y z ihx ihy ihz =>
    rcases Evaluator.bind_error h with h | ⟨_, _, _, h⟩
    · exact ihx h
    · split at h
      · exact ihy h
      · exact ihz h

theorem evaluate_error {env : Environment} {e : Expr} {random random' : RandomSource}
    {error : Error}
    (h : e.evaluate env random = (.error error, random')) : error = .overflow := by
  simp only [evaluate] at h
  split at h
  · next he =>
    cases h
    exact eval_error he
  · cases h

/-- The value of an expression has been looked at, so it is no NaN if none was met. -/
theorem isNaN_of_eval {env : Environment} {e : Expr} {height : Nat} {c d : Course} {x : Float}
    (h : e.eval env height c = (.ok x, d)) (hd : d.sawNaN = false) : x.isNaN = false := by
  induction e generalizing height c with
  | operand column o =>
    rw [eval] at h
    split at h
    · cases h
    · exact Evaluator.isNaN_of_produce h hd
  | negation column x | call column f x =>
    obtain ⟨a, c', _, h⟩ := Evaluator.bind_ok h
    exact Evaluator.isNaN_of_produce h hd
  | binary column op x y | call₂ column f x y =>
    obtain ⟨a, c', _, h⟩ := Evaluator.bind_ok h
    obtain ⟨b, c'', _, h⟩ := Evaluator.bind_ok h
    exact Evaluator.isNaN_of_produce h hd
  | choice column x y z _ ihy ihz =>
    obtain ⟨a, c', _, h⟩ := Evaluator.bind_ok h
    split at h
    · exact ihy h
    · exact ihz h

theorem settled_of_evaluate {env : Environment} {e : Expr} {random random' : RandomSource}
    {r : Evaluation} (h : e.evaluate env random = (.ok r, random')) : r.Settled := by
  simp only [evaluate] at h
  split at h
  · cases h
  · next x c hx =>
    cases h
    cases hc : c.sawNaN with
    | false =>
      refine ⟨?_, nofun⟩
      exact isNaN_of_eval hx hc
    | true => exact .zero

end Expr
end FormulaMachine
