import FormulaMachine.Cell
import FormulaMachine.Proofs.Errors

/-!
What a cell holds after any calls: what came of the last definition, and whether the last evaluation
since then met a NaN.
-/
namespace FormulaMachine

/-- Running a formula that has been compiled never fails for want of one. -/
theorem Compiler.kind_of_run {c : Compiler} {source : String} {f : Formula} {values : List Float}
    {random random' : RandomSource} {e : Error} (h : c.compile source = .ok f)
    (hr : f.run values random = (.error e, random')) : e.kind ≠ .nothingCompiled := by
  rw [error_of_run h hr]
  split <;> nofun

namespace Cell

inductive Call
  | define (source : String)
  | seed (n : UInt64)
  | evaluate (values : List Float)
  | evaluate₁ (x : Float)
  | evaluate₂ (x y : Float)
  | evaluate₃ (x y z : Float)

namespace Call

def source? : Call → Option String
  | define source => some source
  | _ => none

/-- The values that a call evaluates the formula for. -/
def values? : Call → Option (List Float)
  | define _ | seed _ => none
  | evaluate values => some values
  | evaluate₁ x => some [x]
  | evaluate₂ x y => some [x, y]
  | evaluate₃ x y z => some [x, y, z]

def IsSeed (call : Call) : Prop := ∃ n, call = seed n

end Call

/-- The cell after a call. -/
def perform (c : Cell) : Call → Cell
  | .define source => (c.define source).2
  | .seed n => c.seed n
  | .evaluate values => (c.evaluate values).2
  | .evaluate₁ x => (c.evaluate₁ x).2
  | .evaluate₂ x y => (c.evaluate₂ x y).2
  | .evaluate₃ x y z => (c.evaluate₃ x y z).2

def performAll (c : Cell) (calls : List Call) : Cell := calls.foldl perform c

def lastSource? (calls : List Call) : Option String := (calls.filterMap Call.source?).getLast?

/-- The formula that is held has a value for the given ones, and a NaN is met on the way. -/
def MeetsNaN (c : Cell) (values : List Float) : Prop :=
  ∃ f r random, c.formula? = some f ∧ f.run values c.random = (.ok r, random) ∧ r.sawNaN = true

/-- The last of the calls, but for seeds, is an evaluation that succeeds and meets a NaN. -/
def MetNaN (c : Cell) (calls : List Call) : Prop :=
  ∃ before call after values, calls = before ++ call :: after ∧ (∀ later ∈ after, later.IsSeed) ∧
    call.values? = some values ∧ (c.performAll before).MeetsNaN values

section
variable {c : Cell} {calls : List Call} {call : Call} {values : List Float}

theorem performAll_append (calls more : List Call) :
    c.performAll (calls ++ more) = (c.performAll calls).performAll more :=
  List.foldl_append

theorem lastSource?_append (calls : List Call) (call : Call) :
    lastSource? (calls ++ [call]) = call.source?.or (lastSource? calls) := by
  rw [lastSource?, List.filterMap_append, List.getLast?_append]
  cases call <;> rfl

theorem not_isSeed (h : call.values? = some values) : ¬ call.IsSeed := by
  rintro ⟨n, rfl⟩
  cases h

theorem source?_of_values? (h : call.values? = some values) : call.source? = none := by
  cases call with
  | define source => cases h
  | seed | evaluate | evaluate₁ | evaluate₂ | evaluate₃ => rfl

theorem perform_of_values? (h : call.values? = some values) :
    c.perform call = (c.evaluate values).2 := by
  cases call with
  | define | seed => cases h
  | evaluate | evaluate₁ | evaluate₂ | evaluate₃ =>
    cases h
    rfl

theorem evaluate_of_none (h : c.formula? = none) :
    c.evaluate values = (.error { kind := .nothingCompiled }, { c with sawNaN := false }) := by
  rw [evaluate, h]

/-- An evaluation keeps what is held. -/
theorem evaluate_cases (c : Cell) (values : List Float) :
    ∃ sawNaN random, (c.evaluate values).2 = { c with sawNaN, random } ∧
      (sawNaN = true ↔ c.MeetsNaN values) := by
  rcases Option.eq_none_or_eq_some c.formula? with hf | ⟨f, hf⟩
  · refine ⟨false, c.random, by rw [evaluate_of_none hf], nofun, ?_⟩
    rintro ⟨f, r, random, h, -, -⟩
    cases hf.symm.trans h
  · simp only [evaluate, hf]
    rcases hr : f.run values c.random with ⟨e | r, random⟩
    · refine ⟨false, random, rfl, nofun, ?_⟩
      rintro ⟨_, r, random, h, hrun, -⟩
      cases hf.symm.trans h
      cases hr.symm.trans hrun
    · refine ⟨r.sawNaN, random, rfl, fun h => ⟨f, r, random, hf, hr, h⟩, ?_⟩
      rintro ⟨_, _, _, h, hrun, hnan⟩
      cases hf.symm.trans h
      cases hr.symm.trans hrun
      exact hnan

/-- All that a call can do. -/
theorem perform_cases (c : Cell) (call : Call) :
    (call.IsSeed ∧ ∃ random, c.perform call = { c with random }) ∨
    (∃ source, call = .define source ∧ c.perform call =
      { c with formula? := (c.compiler.compile source).toOption,
               error? := Except.error? (c.compiler.compile source), sawNaN := false }) ∨
    ∃ values sawNaN random, call.values? = some values ∧
      c.perform call = { c with sawNaN, random } ∧ (sawNaN = true ↔ c.MeetsNaN values) := by
  have evaluates {values} (h : call.values? = some values) :
      ∃ values sawNaN random, call.values? = some values ∧
        c.perform call = { c with sawNaN, random } ∧ (sawNaN = true ↔ c.MeetsNaN values) := by
    obtain ⟨sawNaN, random, he, hnan⟩ := c.evaluate_cases values
    exact ⟨values, sawNaN, random, h, (perform_of_values? h).trans he, hnan⟩
  cases call with
  | seed n => exact .inl ⟨⟨n, rfl⟩, _, rfl⟩
  | define source =>
    refine .inr (.inl ⟨source, rfl, ?_⟩)
    rw [perform, define]
    cases c.compiler.compile source <;> rfl
  | evaluate | evaluate₁ | evaluate₂ | evaluate₃ => exact .inr (.inr (evaluates rfl))

theorem cases_of_append_singleton {α : Type} {l before after : List α} {x y : α}
    (h : l ++ [y] = before ++ x :: after) :
    (before = l ∧ x = y ∧ after = []) ∨ ∃ more, after = more ++ [y] ∧ l = before ++ x :: more := by
  rcases List.eq_nil_or_concat after with rfl | ⟨more, z, rfl⟩
  · obtain ⟨rfl, hx⟩ := List.append_inj' h rfl
    exact .inl ⟨rfl, (List.cons.inj hx).1.symm, rfl⟩
  · rw [List.concat_eq_append, ← List.cons_append, ← List.append_assoc] at h
    obtain ⟨rfl, hz⟩ := List.append_inj' h rfl
    exact .inr ⟨more, by rw [List.concat_eq_append, (List.cons.inj hz).1], rfl⟩

theorem metNaN_append_seed (h : call.IsSeed) :
    c.MetNaN (calls ++ [call]) ↔ c.MetNaN calls := by
  constructor
  · rintro ⟨before, x, after, values, hc, hs, hx, hm⟩
    rcases cases_of_append_singleton hc with ⟨rfl, rfl, rfl⟩ | ⟨more, rfl, hcalls⟩
    · exact absurd h (not_isSeed hx)
    · exact ⟨before, x, more, values, hcalls, fun y hy => hs y (List.mem_append_left _ hy), hx, hm⟩
  · rintro ⟨before, x, after, values, rfl, hs, hx, hm⟩
    refine ⟨before, x, after ++ [call], values, by simp, fun y hy => ?_, hx, hm⟩
    rcases List.mem_append.mp hy with hy | hy
    · exact hs y hy
    · rwa [List.mem_singleton.mp hy]

theorem metNaN_append (h : ¬ call.IsSeed) :
    c.MetNaN (calls ++ [call]) ↔
      ∃ values, call.values? = some values ∧ (c.performAll calls).MeetsNaN values := by
  constructor
  · rintro ⟨before, x, after, values, hc, hs, hx, hm⟩
    rcases cases_of_append_singleton hc with ⟨rfl, rfl, rfl⟩ | ⟨more, rfl, -⟩
    · exact ⟨values, hx, hm⟩
    · exact absurd (hs call (by simp)) h
  · rintro ⟨values, hx, hm⟩
    exact ⟨calls, call, [], values, rfl, nofun, hx, hm⟩

/-! ### Runs -/

/-- What holds of the cell that calls lead to. -/
structure Recalls (c : Cell) (calls : List Call) : Prop where
  compiler_eq : (c.performAll calls).compiler = c.compiler
  formula?_eq : (c.performAll calls).formula? =
    (lastSource? calls).bind fun source => (c.compiler.compile source).toOption
  error?_eq : (c.performAll calls).error? =
    (lastSource? calls).bind fun source => Except.error? (c.compiler.compile source)
  sawNaN_iff : (c.performAll calls).sawNaN = true ↔ c.MetNaN calls

theorem Recalls.append (h : c.Recalls calls) (call : Call) : c.Recalls (calls ++ [call]) := by
  have hstep : c.performAll (calls ++ [call]) = (c.performAll calls).perform call :=
    performAll_append calls [call]
  rcases (c.performAll calls).perform_cases call with
    ⟨hs, random, hp⟩ | ⟨source, rfl, hp⟩ | ⟨values, sawNaN, random, hv, hp, hnan⟩
  · have hlast : lastSource? (calls ++ [call]) = lastSource? calls := by
      obtain ⟨n, rfl⟩ := hs
      exact lastSource?_append calls _
    refine ⟨?_, ?_, ?_, ?_⟩ <;> rw [hstep, hp]
    · exact h.compiler_eq
    · rw [hlast]
      exact h.formula?_eq
    · rw [hlast]
      exact h.error?_eq
    · rw [metNaN_append_seed hs]
      exact h.sawNaN_iff
  · have hlast : lastSource? (calls ++ [.define source]) = some source :=
      lastSource?_append calls _
    refine ⟨?_, ?_, ?_, ?_⟩ <;> rw [hstep, hp]
    · exact h.compiler_eq
    · rw [hlast, h.compiler_eq]
      rfl
    · rw [hlast, h.compiler_eq]
      rfl
    · rw [metNaN_append (by rintro ⟨n, hn⟩; cases hn)]
      simp [Call.values?]
  · have hlast : lastSource? (calls ++ [call]) = lastSource? calls := by
      rw [lastSource?_append, source?_of_values? hv]
      rfl
    refine ⟨?_, ?_, ?_, ?_⟩ <;> rw [hstep, hp]
    · exact h.compiler_eq
    · rw [hlast]
      exact h.formula?_eq
    · rw [hlast]
      exact h.error?_eq
    · rw [metNaN_append (not_isSeed hv), hv]
      simp [hnan]

theorem Recalls.performAll (h : c.Recalls calls) (more : List Call) :
    c.Recalls (calls ++ more) := by
  induction more generalizing calls with
  | nil => rwa [List.append_nil]
  | cons call more ih =>
    have := ih (h.append call)
    rwa [List.append_assoc] at this

theorem recalls_fresh (compiler : Compiler) (random : RandomSource)
    (seeded : UInt64 → RandomSource) (calls : List Call) :
    Recalls { compiler, random, seeded } calls := by
  have hnil : Recalls { compiler, random, seeded } [] := by
    refine ⟨rfl, rfl, rfl, nofun, ?_⟩
    rintro ⟨before, call, after, values, h, -⟩
    simp at h
  exact hnil.performAll calls

theorem Recalls.error?_eq_some_iff (h : c.Recalls calls) {e : Error} :
    (c.performAll calls).error? = some e ↔ ∃ source, lastSource? calls = some source ∧
      c.compiler.compile source = .error e ∧ e.source = source := by
  rw [h.error?_eq, Option.bind_eq_some_iff]
  constructor
  · rintro ⟨source, hs, he⟩
    have hc := Except.error_of_error? he
    exact ⟨source, hs, hc, (Compiler.blames_of_compile _ hc).2⟩
  · rintro ⟨source, hs, hc, -⟩
    exact ⟨source, hs, by rw [hc]; rfl⟩

theorem Recalls.evaluate_nothingCompiled (h : c.Recalls calls) {e : Error}
    (he : ((c.performAll calls).evaluate values).1 = .error e) (hk : e.kind = .nothingCompiled) :
    (c.performAll calls).formula? = none := by
  cases hf : (c.performAll calls).formula? with
  | none => rfl
  | some f =>
    obtain ⟨source, -, hc⟩ := Option.bind_eq_some_iff.mp (h.formula?_eq.symm.trans hf)
    rw [evaluate, hf] at he
    rcases hr : f.run values (c.performAll calls).random with ⟨error | r, random⟩
    · simp only [hr] at he
      cases he
      exact absurd hk (Compiler.kind_of_run (Except.ok_of_toOption hc) hr)
    · simp only [hr] at he
      cases he

end

/-- Whatever has been called, a cell holds what came of the last definition and nothing of those
before it. The flag is that of the last evaluation since. Evaluating fails for want of a formula,
and then draws nothing, exactly where none is held. -/
theorem performAll_lifecycle (compiler : Compiler) (random : RandomSource)
    (seeded : UInt64 → RandomSource) (calls : List Call) :
    let c := performAll { compiler, random, seeded } calls
    c.formula? = (lastSource? calls).bind (fun source => (compiler.compile source).toOption) ∧
    (∀ e, c.error? = some e ↔ ∃ source, lastSource? calls = some source ∧
      compiler.compile source = .error e ∧ e.source = source) ∧
    c.vars = (c.formula?.map (·.vars)).getD compiler.vars ∧
    (c.sawNaN = true ↔ MetNaN { compiler, random, seeded } calls) ∧
    ∀ values, ((∃ e, (c.evaluate values).1 = .error e ∧ e.kind = .nothingCompiled) ↔
        c.formula? = none) ∧
      (c.formula? = none → (c.evaluate values).2.random = c.random) := by
  intro c
  have h := recalls_fresh compiler random seeded calls
  refine ⟨h.formula?_eq, fun e => h.error?_eq_some_iff, ?_, h.sawNaN_iff,
    fun values => ⟨⟨?_, ?_⟩, ?_⟩⟩
  · rw [vars]
    cases c.formula? with
    | none => exact congrArg Compiler.vars h.compiler_eq
    | some f => rfl
  · rintro ⟨e, he, hk⟩
    exact h.evaluate_nothingCompiled he hk
  · intro hf
    exact ⟨_, by rw [evaluate_of_none hf], rfl⟩
  · intro hf
    rw [evaluate_of_none hf]

end Cell
end FormulaMachine
