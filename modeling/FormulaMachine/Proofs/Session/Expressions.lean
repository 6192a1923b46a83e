import FormulaMachine.Proofs.Discovery
import FormulaMachine.Proofs.Discovery.Uses
import FormulaMachine.Proofs.Errors
import FormulaMachine.Proofs.Session.Frame

/-!
What an expression is answered with: the error of its source, the names that have no value, or what
the formula comes to over the bound names.
-/
namespace FormulaMachine

namespace Compiler

variable {names : List String} {source : String} {f : Formula}

/-- A formula that is found to have the given variables and no others is compiled over these. -/
theorem compile_of_discovered
    (h : compile { vars := names, discover := true } source = .ok f) (hvars : f.vars = names) :
    compile { vars := names } source = .ok f := by
  obtain ⟨final, hfinal, hrecast⟩ := recast_of_compile h
  refine hrecast _ { vars := names } (Names.recast_listed final) rfl ?_ rfl
  simp only [Compiler.names, hfinal, hvars]

/-- With a value for each variable only the operands can be too many. -/
theorem run_error_of_length {c : Compiler} {values : List Float} {random random' : RandomSource}
    {e : Error} (h : c.compile source = .ok f) (hl : values.length = f.vars.length)
    (hr : f.run values random = (.error e, random')) : e = .overflow := by
  have he := error_of_run h hr
  rwa [if_pos hl] at he

end Compiler

namespace Session

variable {s : Session} {source : String} {e : Error}

/-- A source is not compiled, or some of its names are unbound, or it is compiled. -/
theorem compile_cases (names : List String) (source : String) :
    (∃ e, Compiler.compile { vars := names, discover := true } source = .error e ∧
      compile names source = .error (.failed source e)) ∨
    (∃ f found, Compiler.compile { vars := names, discover := true } source = .ok f ∧
      f.vars = names ++ found ∧ found ≠ [] ∧
      compile names source = .error (.usage ("UNBOUND: " ++ ", ".intercalate found))) ∨
    ∃ f, Compiler.compile { vars := names, discover := true } source = .ok f ∧ f.vars = names ∧
      compile names source = .ok f := by
  rw [compile]
  cases h : Compiler.compile { vars := names, discover := true } source with
  | error e => exact .inl ⟨e, rfl, rfl⟩
  | ok f =>
    obtain ⟨found, hvars⟩ := Compiler.vars_isPrefix_of_compile h
    have hdrop : f.vars.drop names.length = found := by rw [← hvars, List.drop_left]
    cases found with
    | nil =>
      rw [List.append_nil] at hvars
      exact .inr (.inr ⟨f, rfl, hvars.symm, by simp only [hdrop]⟩)
    | cons name more =>
      exact .inr (.inl
        ⟨f, name :: more, rfl, hvars.symm, List.cons_ne_nil _ _, by simp only [hdrop]⟩)

/-! ### Errors that are shown -/

/-- An error that a source is to blame for, or the one that a run may end with. -/
def Shown (e : Error) : Prop := e.isCompileError = true ∨ e = .overflow

theorem Shown.kind (h : Shown e) :
    e.kind ∉ [.damagedCode, .nothingCompiled, .valueCountMismatch] := by
  rcases h with h | rfl
  · exact Error.kind_of_isCompileError h
  · decide

theorem shown_of_compile {names : List String} {source' : String}
    (h : compile names source = .error (.failed source' e)) : Shown e := by
  rcases compile_cases names source with ⟨error, hc, hs⟩ | ⟨f, found, -, -, -, hs⟩ | ⟨f, -, -, hs⟩
  · cases hs.symm.trans h
    exact .inl (Compiler.blames_of_compile _ hc).1.isCompileError
  · cases hs.symm.trans h
  · cases hs.symm.trans h

theorem shown_of_evaluate {source' : String}
    (h : (s.evaluate source).1 = .error (.failed source' e)) : Shown e := by
  rcases evaluate_cases s source with
    ⟨reply, hc, hs⟩ | ⟨f, error, random, hc, hr, hs⟩ | ⟨f, r, random, -, -, hs⟩
  · rw [hs] at h
    cases h
    exact shown_of_compile hc
  · rw [hs] at h
    cases h
    obtain ⟨hf, hvars⟩ := compiles_of_compile hc
    exact .inr (Compiler.run_error_of_length hf (by simp [hvars, values, names]) hr)
  · rw [hs] at h
    cases h

theorem Table.exists_run_of_rows {t : Table} {f : Formula} {place : Nat} {values : List Float}
    {interrupted : Interrupts} {random random' : RandomSource} {k left : Nat}
    (h : t.rows f place interrupted values random k left = (.error e, random')) :
    ∃ xs random₁ random₂, xs.length = values.length ∧ f.run xs random₁ = (.error e, random₂) := by
  induction left generalizing random k values with
  | zero => cases h
  | succ left ih =>
    rw [rows] at h
    split at h
    · cases h
    simp only at h
    split at h
    · next hr =>
      cases h
      exact ⟨_, _, _, List.length_set, hr⟩
    · split at h
      · next hrows =>
        cases h
        obtain ⟨xs, random₁, random₂, hl, hr⟩ := ih hrows
        exact ⟨xs, random₁, random₂, hl.trans List.length_set, hr⟩
      · cases h

theorem shown_of_tabulate {text : List Char} {interrupted : Interrupts} {source : String}
    (h : (s.tabulate text interrupted).1 = .failed source e) : Shown e := by
  rw [tabulate] at h
  split at h
  · cases h
  next t ht =>
  split at h
  · next reply hc =>
    obtain rfl : reply = .failed source e := h
    exact shown_of_compile hc
  next f hc =>
  simp only at h
  split at h
  · next hrows =>
    cases h
    obtain ⟨xs, random₁, random₂, hl, hr⟩ := Table.exists_run_of_rows hrows
    obtain ⟨hf, hvars⟩ := compiles_of_compile hc
    rw [t.length_slot s, ← hvars] at hl
    exact .inr (Compiler.run_error_of_length hf hl hr)
  · cases h

/-- Whatever is entered, no error is shown that only a damaged program has. -/
theorem shown_of_enter {line : String} {interrupted : Interrupts} {source : String}
    (h : (s.enter line interrupted).1 = .failed source e) : Shown e := by
  rcases line_cases line with ⟨cs, hl⟩ | ⟨name, text, ha⟩ | he
  · rw [enter_command hl] at h
    simp only [command] at h
    split at h
    · cases h
    · cases h
    · cases h
    · rw [seed] at h
      split at h <;> cases h
    · rw [listCode] at h
      split at h
      · cases h
      · next reply hc =>
        obtain rfl : reply = .failed source e := h
        exact shown_of_compile hc
    · exact shown_of_tabulate h
    · cases h
  · rw [enter_assignment ha, assign] at h
    split at h
    · split at h
      · next reply s' hs =>
        obtain rfl : reply = .failed source e := h
        exact shown_of_evaluate (congrArg Prod.fst hs)
      · cases h
    · cases h
  · rw [enter_expression he] at h
    split at h
    · next reply s' hs =>
      obtain rfl : reply = .failed source e := h
      exact shown_of_evaluate (congrArg Prod.fst hs)
    · cases h

/-- The bound names are compiled with discovery on. If that fails, the error has its place in the
line. If names are found, they are shown, in the order of their first use. If none are, the line is
compiled over the bound names alone, and its value is shown; only the operands can be too many. -/
theorem enter_of_isExpression (s : Session) :
    (∀ line, IsExpression line → ∀ interrupted,
      match Compiler.compile { vars := s.names, discover := true } line with
      | .error e => s.enter line interrupted = (.failed line e, s) ∧ e.isCompileError = true ∧
          e.column.start ≤ e.column.stop ∧ e.column.stop ≤ line.length
      | .ok f => ∃ script found, Script.ofSource? line = .ok script ∧ f.vars = s.names ++ found ∧
          found = (script.uses.filter (· ∉ s.names)).eraseDups ∧
          if found ≠ [] then
            s.enter line interrupted = (.usage ("UNBOUND: " ++ ", ".intercalate found), s)
          else Compiler.compile { vars := s.names } line = .ok f ∧
            match f.run s.values s.random with
            | (.error e, random) =>
              e = .overflow ∧ s.enter line interrupted = (.failed line e, { s with random })
            | (.ok r, random) => s.enter line interrupted = (.lines [r.text], { s with random })) ∧
    ∀ line interrupted source e, (s.enter line interrupted).1 = .failed source e →
      e.kind ∉ [.damagedCode, .nothingCompiled, .valueCountMismatch] := by
  refine ⟨fun line hline interrupted => ?_, fun _ _ _ _ h => (shown_of_enter h).kind⟩
  rw [enter_expression hline]
  rcases compile_cases s.names line with
    ⟨e, hc, hs⟩ | ⟨f, found, hc, hvars, hne, hs⟩ | ⟨f, hc, hvars, hs⟩
  · simp only [hc]
    obtain ⟨⟨he, hstart, hstop⟩, -⟩ := Compiler.blames_of_compile _ hc
    exact ⟨by rw [evaluate_of_compile_error hs], he, hstart, hstop⟩
  · simp only [hc]
    obtain ⟨script, hscript, huses⟩ := Compiler.vars_of_compile hc
    refine ⟨script, found, hscript, hvars, List.append_cancel_left (hvars.symm.trans huses), ?_⟩
    rw [if_pos hne, evaluate_of_compile_error hs]
  · simp only [hc]
    obtain ⟨script, hscript, huses⟩ := Compiler.vars_of_compile hc
    have hnil : f.vars = s.names ++ [] := by rw [List.append_nil, hvars]
    refine ⟨script, [], hscript, hnil, List.append_cancel_left (hnil.symm.trans huses), ?_⟩
    refine ⟨Compiler.compile_of_discovered hc hvars, ?_⟩
    rcases hr : f.run s.values s.random with ⟨e | r, random⟩
    · refine ⟨Compiler.run_error_of_length hc (by simp [hvars, values, names]) hr, ?_⟩
      rw [evaluate_of_run_error hs hr]
    · rw [evaluate_of_run hs hr]

/-- A definition hides its name from then on, and a bound name is not shown. -/
theorem enter_of_isExpression_unbound :
    let s : Session := { bindings := [("x", 2)], random := .cycle [], seeded := fun _ => .cycle [] }
    IsExpression "t: u * x + v; u: 1; v - t * u + w" ∧
      s.enter "t: u * x + v; u: 1; v - t * u + w" = (.usage "UNBOUND: u, v, w", s) := by
  intro s
  have he : IsExpression "t: u * x + v; u: 1; v - t * u + w" :=
    ⟨by decide, splitAssignment?_eq_none (by decide)⟩
  have hvars : (Compiler.compile { vars := s.names, discover := true }
      "t: u * x + v; u: 1; v - t * u + w").toOption.map (·.vars) = some ["x", "u", "v", "w"] := by
    decide +kernel
  obtain ⟨f, hf, hvars⟩ := Option.map_eq_some_iff.mp hvars
  have henter := (enter_of_isExpression s).1 _ he false
  rw [Except.ok_of_toOption hf] at henter
  obtain ⟨script, found, -, hfound, -, henter⟩ := henter
  obtain rfl : found = ["u", "v", "w"] := List.append_cancel_left (hfound.symm.trans hvars)
  rw [if_pos (by decide)] at henter
  exact ⟨he, henter⟩

end Session
end FormulaMachine
