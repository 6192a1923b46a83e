import FormulaMachine.Proofs.Discovery.Variables
import FormulaMachine.Proofs.Inlining

/-!
References are abbreviations: a formula comes to the same whether a reference is used or the
expression that it stands for is written out in its place.
-/
namespace FormulaMachine

namespace Program

/-- What the programs come to one after another, up to the first that fails. -/
def results (env : Environment) (random : RandomSource) : List Program → List Evaluation
  | [] => []
  | p :: rest =>
    match p.run env random with
    | (.error _, _) => []
    | (.ok r, random) => r :: results (env.push r.value) random rest

end Program

/-- What each reference, and at last the main program, comes to. -/
def Formula.results (f : Formula) (values : List Float) (random : RandomSource) :
    List Evaluation :=
  Program.results { vars := values } random (f.references.map (·.2) ++ [f.main])

namespace Expr

/-- Evaluates the expressions one after another, each with the values of those before it. They come
to what the last one comes to, but to zero once a NaN has been met. So far, that is `total`. -/
def evaluateAll (env : Environment) (total : Evaluation) (random : RandomSource) :
    List Expr → Except Error Evaluation × RandomSource
  | [] => (.ok total, random)
  | e :: rest =>
    match e.evaluate env random with
    | (.error e, random) => (.error e, random)
    | (.ok r, random) =>
      evaluateAll (env.push r.value) (if total.sawNaN then { value := 0, sawNaN := true } else r)
        random rest

/-- What the expressions come to, each by itself, up to the first that fails. -/
def results (env : Environment) (random : RandomSource) : List Expr → List Evaluation
  | [] => []
  | e :: rest =>
    match e.evaluate env random with
    | (.error _, _) => []
    | (.ok r, random) => r :: results (env.push r.value) random rest

/-- Each expression refers only to what comes before it. -/
def Ordered (env : Environment) : List Expr → Prop
  | [] => True
  | e :: rest => e.Bound env ∧ ∀ x, Ordered (env.push x) rest

/-- Each expression may have `r` in some places of the reference `i`. -/
inductive InlinesAll (i : Nat) (r : Expr) : List Expr → List Expr → Prop
  | nil : InlinesAll i r [] []
  | cons {e e' : Expr} {es es' : List Expr} :
    Inlines i r e e' → InlinesAll i r es es' → InlinesAll i r (e :: es) (e' :: es')

section
variable {env : Environment} {total result : Evaluation} {random left : RandomSource}
  {es es' before after after' : List Expr} {e r : Expr} {i ceiling : Nat} {p : Program}

theorem InlinesAll.ordered (h : InlinesAll i r es es') (hr : r.Bound env) (ho : Ordered env es) :
    Ordered env es' := by
  induction h generalizing env with
  | nil => trivial
  | cons he _ ih => exact ⟨he.bound hr ho.1, fun x => ih (hr.push x) (ho.2 x)⟩

theorem Ordered.inlined (ho : Ordered env (before ++ r :: after))
    (h : InlinesAll i r after after') : Ordered env (before ++ r :: after') := by
  induction before generalizing env with
  | nil => exact ⟨ho.1, fun x => h.ordered (ho.1.push x) (ho.2 x)⟩
  | cons e before ih => exact ⟨ho.1, fun x => ih (ho.2 x)⟩

/-- A NaN that has been met is never forgotten. -/
theorem evaluateAll_sawNaN
    (h : evaluateAll env { value := 0, sawNaN := true } random es = (.ok result, left)) :
    result = { value := 0, sawNaN := true } := by
  induction es generalizing env random with
  | nil =>
    cases h
    rfl
  | cons e es ih =>
    rw [evaluateAll] at h
    split at h
    · cases h
    · exact ih h

theorem InlinesAll.evaluateAll_eq (h : InlinesAll i r es es') {x : Float}
    (hc : env.Caches i r x) (he : evaluateAll env total random es' = (.ok result, left)) :
    evaluateAll env total random es = (.ok result, left) := by
  induction h generalizing env total random with
  | nil => exact he
  | cons hi _ ih =>
    rw [evaluateAll] at he ⊢
    split at he
    · cases he
    · next kept random₁ hk =>
      rw [hi.evaluate_eq hc hk]
      exact ih (hc.push kept.value) he

/-- If the expression that is written out meets no NaN, all goes on as with its value. If it meets
one, all comes to zero either way. -/
theorem evaluateAll_inlined (ho : Ordered env (before ++ r :: after)) (hd : r.draws = false)
    (hi : InlinesAll (env.refs.length + before.length) r after after')
    (he : evaluateAll env total random (before ++ r :: after') = (.ok result, left)) :
    ∃ kept, (results env random (before ++ r :: after))[before.length]? = some kept ∧
      (kept.sawNaN = false →
        evaluateAll env total random (before ++ r :: after) = (.ok result, left)) ∧
      (kept.sawNaN = true → result = { value := 0, sawNaN := true } ∧
        ∀ result left, evaluateAll env total random (before ++ r :: after) = (.ok result, left) →
          result = { value := 0, sawNaN := true }) := by
  induction before generalizing env total random with
  | nil =>
    simp only [List.nil_append, evaluateAll, results] at he ⊢
    split at he
    · cases he
    next kept random₁ hk =>
    refine ⟨kept, rfl, fun hn => ?_, fun hn => ?_⟩
    · exact hi.evaluateAll_eq (.of_evaluate ho.1 hd hk hn) he
    · have hzero : kept = { value := 0, sawNaN := true } := by
        rw [← (settled_of_evaluate hk).eq_zero hn, ← hn]
      simp only [hzero, ite_self] at he ⊢
      exact ⟨evaluateAll_sawNaN he, fun _ _ => evaluateAll_sawNaN⟩
  | cons e before ih =>
    simp only [List.cons_append, evaluateAll, results] at he ⊢
    split at he
    · cases he
    next kept random₁ hk =>
    have hlength : (env.push kept.value).refs.length + before.length =
        env.refs.length + (e :: before).length := by
      simp only [Environment.push, List.length_append, List.length_cons, List.length_nil]
      omega
    exact ih (ho.2 kept.value) (hlength ▸ hi) he

/-! ### Programs -/

theorem parse_of_toOption {s : Segment} {names names' : Names} {e : Expr}
    (h : (parse s names).1.toOption = some e) (hn : (parse s names).2 = names') :
    parse s names = (.ok e, names') :=
  Prod.ext (Except.ok_of_toOption h) hn

theorem run_of_toProgram? (h : e.toProgram? ceiling = .ok p) (hb : e.Bound env)
    (random : RandomSource) : p.run env random = e.evaluate env random := by
  obtain ⟨a, ha, rfl⟩ := piece?_of_toProgram? h
  exact Program.run_of_piece? ha hb random

theorem results_eq {ps : List Program} (h : es.map (·.toProgram? ceiling) = ps.map .ok)
    (ho : Ordered env es) : Program.results env random ps = results env random es := by
  induction ps generalizing es env random with
  | nil =>
    obtain rfl := List.map_eq_nil_iff.mp h
    rfl
  | cons p ps ih =>
    obtain ⟨e, es, rfl, hp, hps⟩ := List.map_eq_cons_iff.mp h
    simp only [Program.results, results, run_of_toProgram? hp ho.1]
    rcases e.evaluate env random with ⟨_ | kept, random₁⟩
    · rfl
    · simp only [ih hps (ho.2 kept.value)]

theorem runFrom_eq {references : List (String × Program)}
    (h : es.map (·.toProgram? ceiling) = references.map (.ok ·.2) ++ [.ok p])
    (ho : Ordered env es) : Formula.runFrom p env total.sawNaN random references =
      evaluateAll env total random es := by
  induction references generalizing es env total random with
  | nil =>
    obtain ⟨e, rfl, hp⟩ := List.map_eq_singleton_iff.mp h
    rw [Formula.runFrom, evaluateAll, run_of_toProgram? hp ho.1]
    rcases e.evaluate env random with ⟨_ | kept, random₁⟩
    · rfl
    · rfl
  | cons d references ih =>
    obtain ⟨e, es, rfl, hp, hps⟩ := List.map_eq_cons_iff.mp h
    simp only [Formula.runFrom, evaluateAll, run_of_toProgram? hp ho.1]
    rcases e.evaluate env random with ⟨_ | kept, random₁⟩
    · rfl
    · simp only [← ih hps (ho.2 kept.value)]
      cases total.sawNaN <;> rfl

end
end Expr

namespace Script.Reads

variable {names names' final : Names} {s : Segment} {d : Definition} {ds : List Definition}
  {e : Expr} {trees : List (Segment × Expr)}

theorem eq_of_main (h : Reads names { definitions := [], main := s } trees final)
    (he : Expr.parse s names = (.ok e, names')) : trees = [(s, e)] := by
  generalize hscript : ({ definitions := [], main := s } : Script) = script at h
  cases h with
  | main hp =>
    cases hscript
    cases he.symm.trans hp
    rfl
  | definition hp hreads => cases hscript

theorem eq_of_definition (h : Reads names { definitions := d :: ds, main := s } trees final)
    (he : Expr.parse d.toSegment names = (.ok e, names')) :
    ∃ rest, Reads (names'.declare d.name) { definitions := ds, main := s } rest final ∧
      trees = (d.toSegment, e) :: rest := by
  generalize hscript : ({ definitions := d :: ds, main := s } : Script) = script at h
  cases h with
  | main hp => cases hscript
  | definition hp hreads =>
    cases hscript
    cases he.symm.trans hp
    exact ⟨_, hreads, rfl⟩

/-- What is read of a script refers only to the definitions before it. -/
theorem ordered {script : Script} {env : Environment} (h : script.Reads names trees final)
    (he : env.Fits final names) : Expr.Ordered env (trees.map (·.2)) := by
  induction h generalizing env with
  | main hp =>
    obtain ⟨x, -, hr⟩ := Expr.derives_of_parse hp
    exact ⟨hr.bound (.refl _) he, fun _ => trivial⟩
  | @definition names names' final d s e trees hp hreads ih =>
    obtain ⟨x, -, hr⟩ := Expr.derives_of_parse hp
    refine ⟨hr.bound ((names'.grows_declare d.name).trans hreads.grows) he, fun v => ?_⟩
    exact ih (he.declare hr.refs_eq d.name v)

end Script.Reads

namespace Compiler

/-- Write the expression of a reference out in some of its places, if it draws nothing, and compile
what that gives. Where both formulas have a value it is the same, and so is the mark of a NaN. If
the expression itself meets no NaN, the value of the longer formula is that of the shorter one, with
the same draws. -/
theorem run_inlined {c : Compiler} {source : String} {f : Formula}
    (h : c.compile source = .ok f) :
    ∃ script trees final, Script.ofSource? source = .ok script ∧
      script.Reads c.names trees final ∧
      trees.map (·.2.toProgram? c.ceiling) = f.references.map (.ok ·.2) ++ [.ok f.main] ∧
      ∀ before r after after' ceiling references main,
        trees.map (·.2) = before ++ r :: after → r.draws = false →
        Expr.InlinesAll before.length r after after' →
        (before ++ r :: after').map (·.toProgram? ceiling) =
          references.map (.ok ·.2) ++ [.ok main] →
        ∀ values random result' left',
          Formula.run { f with references, main } values random = (.ok result', left') →
          (∀ result left, f.run values random = (.ok result, left) → result = result') ∧
          ((∀ kept, (f.results values random)[before.length]? = some kept → kept.sawNaN = false) →
            f.run values random = (.ok result', left')) := by
  obtain ⟨script, trees, final, hscript, hreads, hvars, hprograms⟩ := reads_of_compile h
  refine ⟨script, trees, final, hscript, hreads, hprograms, ?_⟩
  intro before r after after' ceiling references main htrees hd hi hprograms' values random
    result' left' hrun'
  have hl : values.length = f.vars.length := by
    apply Decidable.byContradiction
    intro hne
    rw [Formula.run, if_pos hne] at hrun'
    cases hrun'
  have ho : Expr.Ordered { vars := values } (before ++ r :: after) :=
    htrees ▸ hreads.ordered ⟨by rw [← hvars, hl], rfl⟩
  have hprograms : (before ++ r :: after).map (·.toProgram? c.ceiling) =
      f.references.map (.ok ·.2) ++ [.ok f.main] := by
    rw [← htrees, List.map_map]
    exact hprograms
  have hfrom : f.run values random =
      Expr.evaluateAll { vars := values } ⟨0, false⟩ random (before ++ r :: after) := by
    rw [Formula.run, if_neg (not_not_intro hl), ← Expr.runFrom_eq hprograms ho]
  have hfrom' : Formula.run { f with references, main } values random =
      Expr.evaluateAll { vars := values } ⟨0, false⟩ random (before ++ r :: after') := by
    rw [Formula.run, if_neg (not_not_intro hl), ← Expr.runFrom_eq hprograms' (ho.inlined hi)]
  have hresults : f.results values random =
      Expr.results { vars := values } random (before ++ r :: after) :=
    Expr.results_eq (by rw [hprograms]; simp) ho
  rw [hfrom'] at hrun'
  rw [hfrom, hresults]
  obtain ⟨kept, hkept, hsame, hzero⟩ :=
    Expr.evaluateAll_inlined ho hd (by simpa using hi) hrun'
  constructor
  · intro result left hrun
    cases hn : kept.sawNaN with
    | false =>
      cases (hsame hn).symm.trans hrun
      rfl
    | true =>
      obtain ⟨hresult', hresult⟩ := hzero hn
      rw [hresult result left hrun, hresult']
  · intro hsteady
    exact hsame (hsteady kept hkept)

/-- One of two references to a quotient is written out, in front of a draw. -/
theorem run_inlined_quotient :
    let main : Program := { constants := [], code := [.ref 0, .var 0, .var 1, .binary .divide,
      .binary .multiply, .var 1, .call .random, .binary .add] }
    ∃ f, compile { vars := ["x", "y"] } "q: x / y; q * q + random(y)" = .ok f ∧
      ∀ values random result left, Formula.run { f with main } values random = (.ok result, left) →
        (∀ kept, (f.results values random)[0]? = some kept → kept.sawNaN = false) →
        f.run values random = (.ok result, left) := by
  intro main
  let quotient : Expr :=
    .binary ⟨5, 6⟩ .divide (.operand ⟨3, 4⟩ (.var 0)) (.operand ⟨7, 8⟩ (.var 1))
  let sum (x : Expr) : Expr := .binary ⟨16, 17⟩ .add
    (.binary ⟨12, 13⟩ .multiply (.operand ⟨10, 11⟩ (.ref 0)) x)
    (.call ⟨18, 24⟩ .random (.operand ⟨25, 26⟩ (.var 1)))
  have hscript : (Script.ofSource? "q: x / y; q * q + random(y)").toOption = some
      { definitions := [⟨⟨" x / y", 2⟩, "q", ⟨0, 1⟩⟩], main := ⟨" q * q + random(y)", 9⟩ } := by
    decide +kernel
  have hquotient : Expr.parse ⟨" x / y", 2⟩ { vars := ["x", "y"] } =
      (.ok quotient, { vars := ["x", "y"] }) :=
    Expr.parse_of_toOption (by decide +kernel) (by decide +kernel)
  have hsum : Expr.parse ⟨" q * q + random(y)", 9⟩ { vars := ["x", "y"], refs := ["q"] } =
      (.ok (sum (.operand ⟨14, 15⟩ (.ref 0))), { vars := ["x", "y"], refs := ["q"] }) :=
    Expr.parse_of_toOption (by decide +kernel) (by decide +kernel)
  have hok : (compile { vars := ["x", "y"] } "q: x / y; q * q + random(y)").isOk = true := by
    decide +kernel
  obtain ⟨f, hf⟩ := Except.exists_ok_of_isOk hok
  obtain ⟨script, trees, final, hs, hreads, hprograms, hrun⟩ := run_inlined hf
  obtain rfl := Except.ok.inj ((Except.ok_of_toOption hscript).symm.trans hs)
  obtain ⟨rest, hrest, rfl⟩ := hreads.eq_of_definition hquotient
  obtain rfl := hrest.eq_of_main hsum
  have hprograms : [quotient.toProgram? 100] ++
      [(sum (.operand ⟨14, 15⟩ (.ref 0))).toProgram? 100] =
      f.references.map (.ok ·.2) ++ [.ok f.main] := hprograms
  obtain ⟨hreferences, -⟩ := List.append_inj' hprograms rfl
  have hinlines : Expr.InlinesAll 0 quotient [sum (.operand ⟨14, 15⟩ (.ref 0))] [sum quotient] :=
    .cons (.binary (.binary .operand .reference) (.call .operand)) .nil
  have hinlined : [quotient, sum quotient].map (·.toProgram? 100) =
      f.references.map (.ok ·.2) ++ [.ok main] := by
    rw [← hreferences]
    rfl
  exact ⟨f, hf, fun values random result left h =>
    (hrun [] quotient _ _ 100 _ _ rfl rfl hinlines hinlined values random result left h).2⟩

end Compiler
end FormulaMachine
