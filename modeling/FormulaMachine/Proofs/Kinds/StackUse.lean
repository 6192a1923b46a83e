import FormulaMachine.Proofs.Kinds.Nesting
import FormulaMachine.Proofs.Kinds.Operands

/-!
How many operands a run holds. Each level of nesting takes four at most and a chain of operators
takes none, so the stack is large enough for formulas of any length that nest no more than eleven
levels.
-/
namespace FormulaMachine

section
variable {room room' : Nat} {k : Rank} {xs : List Placed} {x : Phrase}

theorem Derives.deepen (h : Derives room k xs x) : Derives (room + 1) k xs x := by
  induction h with
  | lone hk _ ih => exact .lone hk ih
  | join hk ho _ _ ihx ihy => exact .join hk ho ihx ihy
  | compare ho _ _ ihx ihy => exact .compare ho ihx ihy
  | signed hs he _ ih => exact .signed hs he ih
  | negated hs ho hm _ ih => exact .negated hs ho hm ih
  | exponent _ _ ihx ihy => exact .exponent ihx ihy
  | literal h => exact .literal h
  | pi => exact .pi
  | euler => exact .euler
  | name h => exact .name h
  | parenthesized _ ih => exact .parenthesized ih
  | call _ ih => exact .call ih
  | call₂ _ _ ihx ihy => exact .call₂ ihx ihy
  | choice _ _ _ ihx ihy ihz => exact .choice ihx ihy ihz

theorem Derives.mono (h : Derives room k xs x) (hr : room ≤ room') : Derives room' k xs x := by
  induction hr with
  | refl => exact h
  | step _ ih => exact ih.deepen

end

/-- Parentheses, calls, choices and exponents nest no more than so many levels. -/
def Segment.NestsWithin (s : Segment) (room : Nat) : Prop :=
  ∃ x, Derives room .expression s.tokens x

/-- The parser itself tells, given so many levels, to which every name is known. -/
theorem Segment.nestsWithin_iff {s : Segment} {room : Nat} : s.NestsWithin room ↔
    let read := (Parser.levels room).expression.run (.ofText s.text s.offset { discover := true })
    read.1.isOk = true ∧ read.2.tokens = [] := by
  rw [Parser.levels_expression]
  constructor
  · rintro ⟨x, hx⟩
    obtain ⟨e, names, hr, -⟩ := x.exists_resolves { discover := true } rfl
    have hrun : (Parser.expression (Parser.below room)).run
        (.ofText s.text s.offset { discover := true }) = _ := Parser.run_of_derives_nil hx hr _
    rw [hrun]
    exact ⟨rfl, rfl⟩
  · rintro ⟨hok, hnil⟩
    obtain ⟨e, he⟩ := Except.exists_ok_of_isOk hok
    obtain ⟨xs, x, ht, -, hx, -⟩ := (Parser.sound_expression room).1 (Prod.ext he rfl)
    rw [hnil, List.append_nil] at ht
    subst ht
    exact ⟨x, hx⟩

instance (s : Segment) (room : Nat) : Decidable (s.NestsWithin room) :=
  decidable_of_iff _ Segment.nestsWithin_iff.symm

namespace Expr

variable {s : Segment} {e : Expr} {kind : Kind} {names names' : Names} {room : Nat}

/-- The phrase does not depend on the room that it is derived with. -/
theorem HasKind.height_le_of_nestsWithin (hk : e.HasKind kind)
    (h : parse s names = (.ok e, names')) (hn : s.NestsWithin room) : e.height ≤ 4 * room + 5 := by
  obtain ⟨x, hx, hr⟩ := derives_of_parse h
  obtain ⟨y, hy⟩ := hn
  obtain rfl := (hx.mono (Nat.le_max_left _ room)).unique (hy.mono (Nat.le_max_right _ _))
  have hle := hy.height_le hr hk
  have htop : Rank.expression.height kind ≤ 5 := by cases kind <;> decide
  omega

end Expr

namespace Program

variable {p : Program} {e : Expr} {ceiling : Nat}

theorem height_of_reaches (h : e.toProgram? ceiling = .ok p) {env : Environment}
    {random : RandomSource} {n : Nat} {s : State} (hs : p.Reaches env random n s) :
    s.operands.height ≤ e.height := by
  obtain ⟨a, ha, hp⟩ := Except.ok_of_bind ((e.toProgram?_eq ceiling).symm.trans h)
  obtain ⟨kinds, hk⟩ := hs.hasKinds (hasKinds_start ha hp random)
  exact hk.height_le

def NeverOverflows (p : Program) : Prop :=
  ∀ env random e left, p.run env random = (.error e, left) → e.kind ≠ .stackOverflow

theorem neverOverflows_of_height (h : e.toProgram? ceiling = .ok p)
    (hl : e.height ≤ maxOperands) : p.NeverOverflows := by
  obtain ⟨a, ha, hp⟩ := Except.ok_of_bind ((e.toProgram?_eq ceiling).symm.trans h)
  intro env random error left hrun
  rcases run_cases (hasKinds_start ha hp random) env with ⟨x, sawNaN, left, -, hok⟩ |
    ⟨error', left', herror, hkind⟩
  · rw [hok] at hrun
    cases hrun
  · rw [herror] at hrun
    cases hrun
    exact hkind hl

end Program

/-- One program of a formula is run after another. -/
theorem Formula.runFrom_neverOverflows {main : Program} {references : List (String × Program)}
    (hm : main.NeverOverflows) (hr : ∀ r ∈ references, r.2.NeverOverflows) {env : Environment}
    {sawNaN : Bool} {random left : RandomSource} {e : Error}
    (h : runFrom main env sawNaN random references = (.error e, left)) :
    e.kind ≠ .stackOverflow := by
  induction references generalizing env sawNaN random with
  | nil =>
    rw [runFrom] at h
    split at h
    · next he =>
      cases h
      exact hm _ _ _ _ he
    · cases h
  | cons r references ih =>
    obtain ⟨hhead, htail⟩ := List.forall_mem_cons.mp hr
    rw [runFrom] at h
    split at h
    · next he =>
      cases h
      exact hhead _ _ _ _ he
    · exact ih htail h

theorem Formula.run_neverOverflows {f : Formula} (h : ∀ p ∈ f.programs, p.NeverOverflows)
    {values : List Float} {random left : RandomSource} {e : Error}
    (hrun : f.run values random = (.error e, left)) : e.kind ≠ .stackOverflow := by
  rw [Formula.run] at hrun
  split at hrun
  · cases hrun
    intro hk
    cases hk
  · refine runFrom_neverOverflows (h _ (by simp [programs])) (fun r hr => h _ ?_) hrun
    exact List.mem_append_left _ (List.mem_map_of_mem hr)

namespace Compiler

variable {c : Compiler} {source : String} {f : Formula}

/-- What a run holds is bounded by the nesting of its segment, whatever its length and whatever the
values. A formula that nests no more than eleven levels anywhere never overflows the stack. -/
theorem operands_bounded (h : c.compile source = .ok f) : ∃ script,
    Script.ofSource? source = .ok script ∧ script.segments.length = f.programs.length ∧
    (∀ (i : Nat) (s : Segment) (p : Program) (room : Nat), script.segments[i]? = some s →
      f.programs[i]? = some p → s.NestsWithin room → ∀ env random n state,
        p.Reaches env random n state → state.operands.height ≤ 4 * room + 5) ∧
    ((∀ s ∈ script.segments, s.NestsWithin 11) → ∀ values random e left,
      f.run values random = (.error e, left) → e.kind ≠ .stackOverflow) := by
  obtain ⟨script, hscript, hl, hsegments⟩ := segments_of_compile h
  have hheight {i : Nat} {s : Segment} {p : Program} {room : Nat}
      (hs : script.segments[i]? = some s) (hp : f.programs[i]? = some p)
      (hn : s.NestsWithin room) :
      ∃ e : Expr, e.toProgram? c.ceiling = .ok p ∧ e.height ≤ 4 * room + 5 := by
    obtain ⟨e, before, after, hparse, -, -, hprogram⟩ := hsegments i s p hs hp
    have hk := (Expr.hasKind_of_toProgram? hprogram).1
    exact ⟨e, hprogram, hk.height_le_of_nestsWithin hparse hn⟩
  refine ⟨script, hscript, hl, fun i s p room hs hp hn env random n state hreach => ?_,
    fun hn values random e left hrun => Formula.run_neverOverflows (fun p hp => ?_) hrun⟩
  · obtain ⟨e, hprogram, hle⟩ := hheight hs hp hn
    exact Nat.le_trans (Program.height_of_reaches hprogram hreach) hle
  · obtain ⟨i, s, hi, hs⟩ := exists_counterpart hp hl.symm
    obtain ⟨e, hprogram, hle⟩ := hheight hs hi (hn _ (List.mem_of_getElem? hs))
    exact Program.neverOverflows_of_height hprogram (Nat.le_trans hle (by decide))

/-- Two levels in each segment. -/
theorem operands_bounded_choice : ∃ f, compile { vars := ["x"] }
      "a: x ^ -(2 * x); if(x < a & a > 0, 2 * (a + 1), 3 - max(a, x))" = .ok f ∧
    (∀ p ∈ f.programs, ∀ env random n s, p.Reaches env random n s →
      s.operands.height ≤ 4 * 2 + 5) ∧
    ∀ values random e left, f.run values random = (.error e, left) → e.kind ≠ .stackOverflow := by
  have hok : (compile { vars := ["x"] }
      "a: x ^ -(2 * x); if(x < a & a > 0, 2 * (a + 1), 3 - max(a, x))").isOk = true := by
    decide +kernel
  have hn : (Script.ofSource? "a: x ^ -(2 * x); if(x < a & a > 0, 2 * (a + 1), 3 - max(a, x))"
      ).toOption.any (fun s => ∀ t ∈ s.segments, t.NestsWithin 2 ∧ t.NestsWithin 11) = true := by
    decide +kernel
  obtain ⟨f, hf⟩ := Except.exists_ok_of_isOk hok
  obtain ⟨script, hscript, hl, hbounded, hrun⟩ := operands_bounded hf
  rw [hscript] at hn
  replace hn : ∀ t ∈ script.segments, t.NestsWithin 2 ∧ t.NestsWithin 11 := of_decide_eq_true hn
  refine ⟨f, hf, fun p hp => ?_, hrun fun t ht => (hn t ht).2⟩
  obtain ⟨i, t, hi, ht⟩ := exists_counterpart hp hl.symm
  exact hbounded i t p 2 ht hi (hn t (List.mem_of_getElem? ht)).1

end Compiler
end FormulaMachine
