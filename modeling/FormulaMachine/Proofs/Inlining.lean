import FormulaMachine.Proofs.Evaluation

/-!
A reference may give way to the expression that it stands for. Where that expression draws nothing
and meets no NaN, what the longer expression comes to, the shorter one comes to as well. The
converse fails, as more operands may wait in the longer one.
-/
namespace FormulaMachine

namespace Evaluator

variable {α β : Type} {m m' : Evaluator α} {f g : α → Evaluator β}

/-- All that the second evaluator yields, the first yields as well and with the same course. -/
def Covers (m m' : Evaluator α) : Prop := ∀ ⦃c a d⦄, m' c = (.ok a, d) → m c = (.ok a, d)

theorem Covers.refl (m : Evaluator α) : m.Covers m := fun _ _ _ h => h

theorem Covers.bind (hm : m.Covers m') (hf : ∀ a, (f a).Covers (g a)) :
    (m >>= f).Covers (m' >>= g) := by
  intro c b d h
  obtain ⟨a, c', ha, hb⟩ := bind_ok h
  simp only [Bind.bind, hm ha]
  exact hf a hb

/-- The evaluator yields nothing but the given value, and notes whether a NaN was met. -/
def Yields (m : Evaluator Float) (x : Float) (sawNaN : Bool) : Prop :=
  ∀ ⦃c y d⦄, m c = (.ok y, d) → y = x ∧ d = { c with sawNaN := c.sawNaN || sawNaN }

theorem yields_produce (x : Float) : (produce x).Yields x x.isNaN := by
  intro c y d h
  cases h
  exact ⟨rfl, rfl⟩

theorem Yields.bind {m : Evaluator Float} {f : Float → Evaluator Float} {x y : Float}
    {first second : Bool} (hm : m.Yields x first) (hf : (f x).Yields y second) :
    (m >>= f).Yields y (first || second) := by
  intro c z d h
  obtain ⟨a, c', ha, hz⟩ := bind_ok h
  obtain ⟨rfl, rfl⟩ := hm ha
  obtain ⟨rfl, rfl⟩ := hf hz
  exact ⟨rfl, by simp only [Bool.or_assoc]⟩

end Evaluator

/-- All functions but one leave the random source aside. -/
theorem UnaryFunction.apply_of_ne_random {f : UnaryFunction} (hf : f ≠ .random) (x : Float) :
    ∃ y, ∀ random, f.apply x random = (y, random) := by
  cases f with
  | random => exact absurd rfl hf
  | _ => exact ⟨_, fun _ => rfl⟩

theorem Evaluator.yields_call {f : UnaryFunction} (hf : f ≠ .random) (x : Float) :
    ∃ y, (call f x).Yields y y.isNaN := by
  obtain ⟨y, hy⟩ := f.apply_of_ne_random hf x
  refine ⟨y, fun c z d h => ?_⟩
  simp only [call, hy] at h
  exact yields_produce y h

/-- One more reference has a value. -/
def Environment.push (env : Environment) (x : Float) : Environment :=
  { env with refs := env.refs ++ [x] }

namespace Expr

/-- Some reference `i` or other in an expression gives way to `r`. -/
inductive Inlines (i : Nat) (r : Expr) : Expr → Expr → Prop
  | reference {c : Column} : Inlines i r (.operand c (.ref i)) r
  | operand {c : Column} {o : Operand} : Inlines i r (.operand c o) (.operand c o)
  | call {c : Column} {f : UnaryFunction} {x x' : Expr} :
    Inlines i r x x' → Inlines i r (.call c f x) (.call c f x')
  | call₂ {c : Column} {f : BinaryFunction} {x x' y y' : Expr} :
    Inlines i r x x' → Inlines i r y y' → Inlines i r (.call₂ c f x y) (.call₂ c f x' y')
  | choice {c : Column} {x x' y y' z z' : Expr} :
    Inlines i r x x' → Inlines i r y y' → Inlines i r z z' →
    Inlines i r (.choice c x y z) (.choice c x' y' z')
  | negation {c : Column} {x x' : Expr} :
    Inlines i r x x' → Inlines i r (.negation c x) (.negation c x')
  | binary {c : Column} {op : Operator} {x x' y y' : Expr} :
    Inlines i r x x' → Inlines i r y y' → Inlines i r (.binary c op x y) (.binary c op x' y')

/-- Whether there is a call of the one function that draws. -/
def draws : Expr → Bool
  | operand _ _ => false
  | call _ f x => f = .random || x.draws
  | negation _ x => x.draws
  | call₂ _ _ x y | binary _ _ x y => x.draws || y.draws
  | choice _ condition yes no => condition.draws || yes.draws || no.draws

variable {env : Environment} {e e' r : Expr} {i : Nat}

/-- What draws nothing comes to the same value whatever was drawn before, and however many values
wait for it. -/
theorem exists_yields (h : e.draws = false) (env : Environment) :
    ∃ x sawNaN, ∀ height, (e.eval env height).Yields x sawNaN := by
  induction e with
  | operand c o =>
    refine ⟨o.value env, (o.value env).isNaN, fun height => ?_⟩
    rw [eval]
    split
    · intro course y d h
      cases h
    · exact Evaluator.yields_produce _
  | call c f x ih =>
    simp only [draws, Bool.or_eq_false_iff, decide_eq_false_iff_not] at h
    obtain ⟨a, n, hx⟩ := ih h.2
    obtain ⟨b, hf⟩ := Evaluator.yields_call h.1 a
    exact ⟨b, _, fun height => (hx height).bind hf⟩
  | negation c x ih =>
    obtain ⟨a, n, hx⟩ := ih h
    exact ⟨-a, _, fun height => (hx height).bind (Evaluator.yields_produce _)⟩
  | call₂ c f x y ihx ihy =>
    simp only [draws, Bool.or_eq_false_iff] at h
    obtain ⟨a, n, hx⟩ := ihx h.1
    obtain ⟨b, k, hy⟩ := ihy h.2
    exact ⟨f.apply a b, _, fun height =>
      (hx height).bind ((hy (height + 1)).bind (Evaluator.yields_produce _))⟩
  | binary c op x y ihx ihy =>
    simp only [draws, Bool.or_eq_false_iff] at h
    obtain ⟨a, n, hx⟩ := ihx h.1
    obtain ⟨b, k, hy⟩ := ihy h.2
    exact ⟨op.apply a b, _, fun height =>
      (hx height).bind ((hy (height + 1)).bind (Evaluator.yields_produce _))⟩
  | choice c x y z ihx ihy ihz =>
    simp only [draws, Bool.or_eq_false_iff] at h
    obtain ⟨a, n, hx⟩ := ihx h.1.1
    -- The condition always has the same value, so the same side is always taken.
    by_cases ha : isTrue a
    · obtain ⟨b, k, hy⟩ := ihy h.1.2
      refine ⟨b, n || k, fun height => (hx height).bind ?_⟩
      rw [if_pos ha]
      exact hy height
    · obtain ⟨b, k, hz⟩ := ihz h.2
      refine ⟨b, n || k, fun height => (hx height).bind ?_⟩
      rw [if_neg ha]
      exact hz height

theorem Bound.push (h : e.Bound env) (x : Float) : e.Bound (env.push x) := by
  intro o ho
  have hb := h o ho
  cases o with
  | literal | pi | euler => trivial
  | var j => exact hb
  | ref j =>
    have hj : j < env.refs.length := hb
    show j < (env.refs ++ [x]).length
    rw [List.length_append]
    omega

/-- Nothing refers to values that come later. -/
theorem eval_push (h : e.Bound env) (x : Float) (height : Nat) :
    e.eval (env.push x) height = e.eval env height := by
  induction e generalizing height with
  | operand c o =>
    have hb := bound_operand.mp h
    cases o with
    | literal | pi | euler | var => rfl
    | ref j =>
      have hj : j < env.refs.length := hb
      simp [eval, Operand.value, Environment.push, List.getElem?_append_left hj]
  | call c f y ih | negation c y ih => simp only [eval, ih h]
  | call₂ c f y z ihy ihz =>
    obtain ⟨hy, hz⟩ := bound_call₂.mp h
    simp only [eval, ihy hy, ihz hz]
  | binary c op y z ihy ihz =>
    obtain ⟨hy, hz⟩ := bound_binary.mp h
    simp only [eval, ihy hy, ihz hz]
  | choice c w y z ihw ihy ihz =>
    obtain ⟨⟨hw, hy⟩, hz⟩ := bound_choice.mp h
    simp only [eval, ihw hw, ihy hy, ihz hz]

end Expr

/-- The reference `i` has the value `x`, to which `r` comes, and no NaN is met on the way. -/
structure Environment.Caches (env : Environment) (i : Nat) (r : Expr) (x : Float) : Prop where
  getElem? : env.refs[i]? = some x
  not_isNaN : x.isNaN = false
  bound : r.Bound env
  yields : ∀ height, (r.eval env height).Yields x false

namespace Environment.Caches

variable {env : Environment} {i : Nat} {r : Expr} {x : Float}

theorem push (h : env.Caches i r x) (y : Float) : (env.push y).Caches i r x where
  getElem? := by
    have hi := (List.getElem?_eq_some_iff.mp h.getElem?).1
    exact (List.getElem?_append_left hi).trans h.getElem?
  not_isNaN := h.not_isNaN
  bound := h.bound.push y
  yields height := by
    rw [Expr.eval_push h.bound]
    exact h.yields height

/-- A value that is no NaN leaves the course as it is, as the evaluation of `r` does. -/
theorem covers (h : env.Caches i r x) (c : Column) (height : Nat) :
    ((Expr.operand c (.ref i)).eval env height).Covers (r.eval env height) := by
  intro course y d hr
  have hlt := Expr.height_lt_of_eval hr
  obtain ⟨rfl, rfl⟩ := h.yields height hr
  have hvalue : (Operand.ref i).value env = y := by
    rw [Operand.value, List.getD_eq_getElem?_getD, h.getElem?, Option.getD_some]
  rw [Expr.eval, if_neg (Nat.not_le.mpr hlt), hvalue, Evaluator.produce, Course.note, h.not_isNaN]

/-- The value that is kept of an expression. -/
theorem of_evaluate (hb : r.Bound env) (hd : r.draws = false) {random random' : RandomSource}
    {kept : Evaluation} (h : r.evaluate env random = (.ok kept, random'))
    (hn : kept.sawNaN = false) : (env.push kept.value).Caches env.refs.length r kept.value := by
  obtain ⟨x, sawNaN, hy⟩ := Expr.exists_yields hd env
  have hvalue : kept.value = x ∧ sawNaN = false := by
    simp only [Expr.evaluate] at h
    split at h
    · cases h
    · next y c hr =>
      cases h
      obtain ⟨rfl, rfl⟩ := hy 0 hr
      simp_all
  obtain ⟨hx, rfl⟩ := hvalue
  refine ⟨by simp [Environment.push], (Expr.settled_of_evaluate h).not_isNaN, hb.push _, ?_⟩
  intro height
  rw [Expr.eval_push hb, hx]
  exact hy height

end Environment.Caches

namespace Expr.Inlines

variable {env : Environment} {e e' r : Expr} {i : Nat}

theorem bound (h : Inlines i r e e') (hr : r.Bound env) (he : e.Bound env) : e'.Bound env := by
  induction h with
  | reference => exact hr
  | operand => exact he
  | call _ ih | negation _ ih => exact ih he
  | call₂ _ _ ihx ihy =>
    obtain ⟨hx, hy⟩ := bound_call₂.mp he
    exact bound_call₂.mpr ⟨ihx hx, ihy hy⟩
  | binary _ _ ihx ihy =>
    obtain ⟨hx, hy⟩ := bound_binary.mp he
    exact bound_binary.mpr ⟨ihx hx, ihy hy⟩
  | choice _ _ _ ihx ihy ihz =>
    obtain ⟨⟨hx, hy⟩, hz⟩ := bound_choice.mp he
    exact bound_choice.mpr ⟨⟨ihx hx, ihy hy⟩, ihz hz⟩

theorem covers (h : Inlines i r e e') {x : Float} (hc : env.Caches i r x) (height : Nat) :
    (e.eval env height).Covers (e'.eval env height) := by
  induction h generalizing height with
  | reference => exact hc.covers _ height
  | operand => exact .refl _
  | call _ ih | negation _ ih => exact (ih height).bind fun _ => .refl _
  | call₂ _ _ ihx ihy | binary _ _ ihx ihy =>
    exact (ihx height).bind fun _ => (ihy (height + 1)).bind fun _ => .refl _
  | choice _ _ _ ihx ihy ihz =>
    refine (ihx height).bind fun a => ?_
    by_cases ha : isTrue a
    · rw [if_pos ha, if_pos ha]
      exact ihy height
    · rw [if_neg ha, if_neg ha]
      exact ihz height

theorem evaluate_eq (h : Inlines i r e e') {x : Float} (hc : env.Caches i r x)
    {random random' : RandomSource} {result : Evaluation}
    (he : e'.evaluate env random = (.ok result, random')) :
    e.evaluate env random = (.ok result, random') := by
  simp only [evaluate] at he ⊢
  split at he
  · cases he
  · next hy =>
    rw [h.covers hc 0 hy]
    exact he

end Expr.Inlines
end FormulaMachine
