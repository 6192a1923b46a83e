import FormulaMachine.Proofs.Compilation.Parts
import FormulaMachine.Proofs.Meaning
import FormulaMachine.Proofs.Parsing
import FormulaMachine.Proofs.Simulation
import FormulaMachine.Proofs.Splitting

/-! A compiled formula runs as its source means. -/
namespace FormulaMachine

namespace Script.Says

variable {s : Script} {xs ys : List (String × Phrase)} {x y : Phrase}

theorem unique (h : s.Says xs x) (h' : s.Says ys y) : xs = ys ∧ x = y := by
  induction h generalizing ys with
  | main h =>
    cases h' with
    | main h' => exact ⟨rfl, h.unique h'⟩
  | definition h _ ih =>
    cases h' with
    | definition h' hs =>
      obtain ⟨rfl, rfl⟩ := ih hs
      rw [h.unique h']
      exact ⟨rfl, rfl⟩

/-- What has a meaning contains no semicolons. -/
theorem not_mem (h : s.Says xs x) :
    (∀ d ∈ s.definitions, ';' ∉ d.text.toList) ∧ ';' ∉ s.main.text.toList := by
  induction h with
  | main h => exact ⟨nofun, Segment.not_mem_of_derives h (.inr rfl)⟩
  | definition h _ ih =>
    refine ⟨fun d hd => ?_, ih.2⟩
    rcases List.mem_cons.mp hd with rfl | hd
    · exact Segment.not_mem_of_derives h (.inr rfl)
    · exact ih.1 d hd

end Script.Says

namespace Compiler

variable {c : Compiler} {names names' final : Names} {s : Segment} {p : Program}

theorem segment_ok (h : c.segment s names = .ok (p, names')) :
    ∃ e, Expr.parse s names = (.ok e, names') ∧ e.toProgram? c.ceiling = .ok p := by
  simp only [segment] at h
  split at h
  · cases h
  · next e names₁ hp =>
    obtain ⟨q, hq, h⟩ := Except.ok_of_bind h
    cases h
    exact ⟨e, hp, hq⟩

theorem segment_says (h : c.segment s names = .ok (p, names')) :
    ∃ x e, Derives Parser.maxNesting .expression s.tokens x ∧ Resolves names x e names' ∧
      ∀ env random, e.Bound env → p.run env random = e.evaluate env random := by
  obtain ⟨e, hp, hq⟩ := segment_ok h
  obtain ⟨x, hx, hr⟩ := Expr.derives_of_parse hp
  obtain ⟨a, ha, rfl⟩ := Expr.piece?_of_toProgram? hq
  exact ⟨x, e, hx, hr, fun env random hb => Program.run_of_piece? ha hb random⟩

theorem runFrom_eq {ds : List Definition} {references : List (String × Program)}
    (hd : c.definitions names ds = .ok (references, names'))
    (hs : c.segment s names' = .ok (p, final)) :
    names.Grows final ∧ ∃ xs x, Script.Says ⟨ds, s⟩ xs x ∧ ∀ env sawNaN random,
      env.Fits final names → Formula.runFrom p env sawNaN random references =
        x.evaluateAfter (final.vars.zip env.vars) (names.refs.zip env.refs).reverse sawNaN random
          xs := by
  induction ds generalizing names references with
  | nil =>
    cases hd
    obtain ⟨x, e, hx, hr, hp⟩ := segment_says hs
    refine ⟨hr.grows, [], x, .main hx, fun env sawNaN random he => ?_⟩
    rw [Formula.runFrom, Phrase.evaluateAfter, hp env random (hr.bound (.refl _) he),
      hr.evaluate_eq (.refl _) he]
    rfl
  | cons d ds ih =>
    obtain ⟨⟨q, names₁⟩, hq, hd⟩ := Except.ok_of_bind hd
    obtain ⟨⟨qs, names₂⟩, hqs, hd⟩ := Except.ok_of_bind hd
    cases hd
    obtain ⟨y, e, hy, hr, hp⟩ := segment_says hq
    obtain ⟨hg, xs, x, hsay, hrun⟩ := ih hqs
    have hg' := (names₁.grows_declare d.name).trans hg
    refine ⟨hr.grows.trans hg', (d.name, y) :: xs, x, .definition hy hsay,
      fun env sawNaN random he => ?_⟩
    rw [Formula.runFrom, Phrase.evaluateAfter, hp env random (hr.bound hg' he),
      hr.evaluate_eq hg' he, Names.scope]
    generalize y.evaluate _ random = o
    obtain ⟨error | r, random'⟩ := o
    · rfl
    · have hrun := hrun _ (sawNaN || r.sawNaN) random' (he.declare hr.refs_eq d.name r.value)
      rw [scope_declare he hr.refs_eq] at hrun
      exact hrun

theorem script_of_compile {source : String} {f : Formula} (h : c.compile source = .ok f) :
    c.script source = .ok f := by
  rw [compile_eq] at h
  cases hs : c.script source with
  | error e =>
    rw [hs] at h
    cases h
  | ok g =>
    rw [hs] at h
    exact h

theorem says_of_compile {source : String} {f : Formula} (h : c.compile source = .ok f) :
    ∃ script xs x, Script.Written 0 source.toList script ∧ script.Says xs x ∧
      ∀ values random, values.length = f.vars.length →
        f.run values random = x.evaluateAfter (f.vars.zip values) [] false random xs := by
  obtain ⟨script, hscript, h⟩ := Except.ok_of_bind (script_of_compile h)
  obtain ⟨⟨references, names⟩, hd, h⟩ := Except.ok_of_bind h
  obtain ⟨⟨main, final⟩, hs, h⟩ := Except.ok_of_bind h
  cases h
  have hw := Script.blamed_ofSource? source
  rw [hscript] at hw
  obtain ⟨-, xs, x, hsay, hrun⟩ := runFrom_eq hd hs
  refine ⟨script, xs, x, hw, hsay, fun values random hl => ?_⟩
  rw [Formula.run, if_neg (not_not_intro hl)]
  exact hrun _ _ _ ⟨hl.symm, rfl⟩

theorem settled_of_run {source : String} {f : Formula} {values : List Float}
    {random random' : RandomSource} {r : Evaluation} (h : c.compile source = .ok f)
    (hr : f.run values random = (.ok r, random')) : r.Settled := by
  obtain ⟨script, xs, x, -, -, hrun⟩ := says_of_compile h
  by_cases hl : values.length = f.vars.length
  · rw [hrun values random hl] at hr
    exact Phrase.settled_of_evaluateAfter hr
  · rw [Formula.run, if_pos hl] at hr
    cases hr

/-- The source of a compiled formula can be read in one way, and the formula runs as it reads. -/
theorem run_eq_evaluateAfter {source : String} {f : Formula} (h : c.compile source = .ok f) :
    ∃ script xs x, Script.Written 0 source.toList script ∧ script.Says xs x ∧
      (∀ script' xs' x', Script.Written 0 source.toList script' → script'.Says xs' x' →
        script' = script ∧ xs' = xs ∧ x' = x) ∧
      ∀ values random, values.length = f.vars.length →
        f.run values random = x.evaluateAfter (f.vars.zip values) [] false random xs := by
  obtain ⟨script, xs, x, hw, hs, hrun⟩ := says_of_compile h
  refine ⟨script, xs, x, hw, hs, fun script' xs' x' hw' hs' => ?_, hrun⟩
  obtain rfl := hw'.unique hw hs'.not_mem.1 hs'.not_mem.2 hs.not_mem.1 hs.not_mem.2
  obtain ⟨rfl, rfl⟩ := hs'.unique hs
  exact ⟨rfl, rfl, rfl⟩

/-- The second definition of the name sees the first. -/
theorem run_eq_evaluateAfter_redefined :
    ∃ f, compile { vars := ["x"] } "a: x + 1; a: 2 * a; max(a, x)" = .ok f ∧
    ∃ script xs x, Script.Written 0 "a: x + 1; a: 2 * a; max(a, x)".toList script ∧
      script.Says xs x ∧
      (∀ script' xs' x', Script.Written 0 "a: x + 1; a: 2 * a; max(a, x)".toList script' →
        script'.Says xs' x' → script' = script ∧ xs' = xs ∧ x' = x) ∧
      ∀ values random, values.length = f.vars.length →
        f.run values random = x.evaluateAfter (f.vars.zip values) [] false random xs := by
  have h : (compile { vars := ["x"] } "a: x + 1; a: 2 * a; max(a, x)").isOk = true := by
    decide +kernel
  obtain ⟨f, hf⟩ := Except.exists_ok_of_isOk h
  exact ⟨f, hf, run_eq_evaluateAfter hf⟩

end Compiler
end FormulaMachine
