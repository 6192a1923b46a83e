import FormulaMachine.Proofs.Code.Errors
import FormulaMachine.Proofs.Compilation
import FormulaMachine.Proofs.Parsing.Errors

/-!
What can go wrong with a formula. Compiling blames the source and running never does, and the errors
of a damaged program do not occur.
-/
namespace FormulaMachine

namespace Compiler

variable (c : Compiler) {names : Names} {s : Segment} {length : Nat}

theorem blamed_segment (hl : s.offset + s.text.length ≤ length) :
    Blamed length (fun _ => True) (c.segment s names) := by
  simp only [segment]
  split
  · next e names' hp => exact (Expr.blames_of_parse hp).mono hl
  · next e names' hp =>
    obtain ⟨x, hx, hr⟩ := Expr.derives_of_parse hp
    have hw := hx.within hr s.ordered
    exact blamed_bind ((Expr.blamed_toProgram? c.ceiling hw).mono hl) fun _ _ => trivial

theorem blamed_definitions {ds : List Definition}
    (hl : ∀ d ∈ ds, d.offset + d.text.length ≤ length) :
    Blamed length (fun _ => True) (c.definitions names ds) := by
  induction ds generalizing names with
  | nil => trivial
  | cons d ds ih =>
    apply blamed_bind (c.blamed_segment (hl d List.mem_cons_self))
    rintro ⟨p, names'⟩ _
    refine blamed_bind (ih fun d hd => hl d (List.mem_cons_of_mem _ hd)) fun _ _ => ?_
    trivial

theorem blamed_script (source : String) :
    Blamed source.length (fun _ => True) (c.script source) := by
  apply blamed_bind (Script.blamed_ofSource? source)
  intro script hw
  obtain ⟨hd, hm⟩ := hw.stop_le
  rw [Nat.zero_add, String.length_toList] at hd hm
  apply blamed_bind (c.blamed_definitions hd)
  rintro ⟨references, names⟩ _
  exact blamed_bind (c.blamed_segment hm) fun _ _ => trivial

theorem blames_of_compile {source : String} {e : Error} (h : c.compile source = .error e) :
    e.Blames source.length ∧ e.source = source := by
  have hs := c.blamed_script source
  rw [compile_eq] at h
  cases hr : c.script source with
  | ok f =>
    rw [hr] at h
    cases h
  | error error =>
    rw [hr] at hs h
    cases h
    exact ⟨⟨hs.isCompileError, hs.start_le, hs.stop_le, hs.detail_mem⟩, rfl⟩

end Compiler

theorem Phrase.evaluateAfter_error {main : Phrase} {vars defined : List (String × Float)}
    {sawNaN : Bool} {random random' : RandomSource} {xs : List (String × Phrase)} {e : Error}
    (h : main.evaluateAfter vars defined sawNaN random xs = (.error e, random')) :
    e = .overflow := by
  induction xs generalizing defined sawNaN random with
  | nil =>
    rw [evaluateAfter] at h
    split at h
    · next he =>
      cases h
      exact Expr.evaluate_error he
    · cases h
  | cons d xs ih =>
    rw [evaluateAfter] at h
    split at h
    · next he =>
      cases h
      exact Expr.evaluate_error he
    · exact ih h

theorem Formula.run_error {f : Formula} {main : Phrase} {xs : List (String × Phrase)}
    (hrun : ∀ values random, values.length = f.vars.length →
      f.run values random = main.evaluateAfter (f.vars.zip values) [] false random xs)
    {values : List Float} {random random' : RandomSource} {e : Error}
    (h : f.run values random = (.error e, random')) :
    e = if values.length = f.vars.length then .overflow else { kind := .valueCountMismatch } := by
  by_cases hl : values.length = f.vars.length
  · rw [hrun values random hl] at h
    rw [if_pos hl]
    exact Phrase.evaluateAfter_error h
  · rw [Formula.run, if_pos hl] at h
    rw [if_neg hl]
    cases h
    rfl

namespace Error

variable {e : Error}

theorem kind_of_isCompileError (h : e.isCompileError = true) :
    e.kind ∉ [.damagedCode, .nothingCompiled, .valueCountMismatch] := by
  intro hk
  simp only [List.mem_cons, List.not_mem_nil, or_false] at hk
  rcases hk with hk | hk | hk <;> simp [isCompileError, hk] at h

theorem column_of_isCompileError (h : e.isCompileError = true) (hk : e.kind = .stackOverflow) :
    e.column.start < e.column.stop := by
  simpa [isCompileError, hk, Column.isEmpty] using h

end Error

namespace Compiler

/-- What a compiled formula fails with. -/
theorem error_of_run {c : Compiler} {source : String} {f : Formula} {values : List Float}
    {random random' : RandomSource} {e : Error} (h : c.compile source = .ok f)
    (hr : f.run values random = (.error e, random')) :
    e = if values.length = f.vars.length then .overflow else { kind := .valueCountMismatch } := by
  obtain ⟨-, xs, x, -, -, hrun⟩ := says_of_compile h
  exact Formula.run_error hrun hr

/-- Each error is what it is said to be. Those of compiling have a place in the source. Those of
running have none, and there are two of them. -/
theorem errors_classified (c : Compiler) (source : String) :
    (∀ e, c.compile source = .error e →
      e.isCompileError = true ∧
      e.kind ∉ [.damagedCode, .nothingCompiled, .valueCountMismatch] ∧
      (e.kind = .stackOverflow → e.column.start < e.column.stop) ∧
      e.column.start ≤ e.column.stop ∧ e.column.stop ≤ source.length ∧ e.source = source) ∧
    ∀ f, c.compile source = .ok f → ∀ values random e random',
      f.run values random = (.error e, random') →
        e = (if values.length = f.vars.length then .overflow else { kind := .valueCountMismatch }) ∧
        e.column = ⟨0, 0⟩ ∧ e.isCompileError = false := by
  constructor
  · intro e h
    obtain ⟨⟨hc, hs, hl⟩, hsource⟩ := c.blames_of_compile h
    exact ⟨hc, Error.kind_of_isCompileError hc, Error.column_of_isCompileError hc, hs, hl, hsource⟩
  · intro f h values random e random' hr
    obtain ⟨-, xs, x, -, -, hrun⟩ := says_of_compile h
    have he := Formula.run_error hrun hr
    refine ⟨he, ?_⟩
    split at he
    · rw [he]
      exact ⟨rfl, rfl⟩
    · rw [he]
      exact ⟨rfl, rfl⟩

end Compiler
end FormulaMachine
