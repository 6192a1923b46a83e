import FormulaMachine.Proofs.Columns.Exactness

/-! The segments of a source, and the programs that they are compiled to, one each. -/
namespace FormulaMachine

/-- In the order of the source, the main segment last. -/
def Script.segments (s : Script) : List Segment := s.definitions.map (·.toSegment) ++ [s.main]

/-- In the order in which they run, the main program last. -/
def Formula.programs (f : Formula) : List Program := f.references.map (·.2) ++ [f.main]

/-- What stands at the same place of another list. -/
theorem exists_counterpart {α β : Type} {xs : List α} {ys : List β} {x : α} (h : x ∈ xs)
    (hl : xs.length = ys.length) : ∃ (i : Nat) (y : β), xs[i]? = some x ∧ ys[i]? = some y := by
  obtain ⟨i, hi⟩ := List.getElem?_of_mem h
  have hlt : i < ys.length := hl ▸ (List.getElem?_eq_some_iff.mp hi).1
  exact ⟨i, ys[i], hi, List.getElem?_eq_getElem hlt⟩

namespace Script

variable {s : Script} {t : Segment × Expr} {names final : Names} {trees : List (Segment × Expr)}

theorem mem_segments {t : Segment} :
    t ∈ s.segments ↔ (∃ d ∈ s.definitions, d.toSegment = t) ∨ t = s.main := by
  simp [segments]

theorem length_segments (s : Script) : s.segments.length = s.definitions.length + 1 := by
  simp [segments]

theorem Reads.segments_eq (h : s.Reads names trees final) : trees.map (·.1) = s.segments := by
  induction h with
  | main => rfl
  | definition _ _ ih => rw [List.map_cons, ih]; rfl

theorem Reads.exists_tree (h : s.Reads names trees final) {i : Nat} {t : Segment}
    (ht : s.segments[i]? = some t) : ∃ e, trees[i]? = some (t, e) := by
  rw [← h.segments_eq, List.getElem?_map, Option.map_eq_some_iff] at ht
  obtain ⟨tree, htree, rfl⟩ := ht
  exact ⟨tree.2, htree⟩

/-- The table that a segment is read with. -/
def table (s : Script) (names : Names) (i : Nat) : Names :=
  (s.definitions.take i).foldl
    (fun names d => (Expr.parse d.toSegment names).2.declare d.name) names

/-- A segment is read with the definitions before it in the table, and what it makes of the table
is left to the next segment, or in the end. -/
theorem Reads.parse_table (h : s.Reads names trees final) {i : Nat} (ht : trees[i]? = some t) :
    ∃ after, Expr.parse t.1 (s.table names i) = (.ok t.2, after) ∧
      (s.table names i).refs = names.refs ++ (s.definitions.take i).map (·.name) ∧
      after.Grows final ∧
      ((∃ d, s.definitions[i]? = some d ∧ s.table names (i + 1) = after.declare d.name) ∨
        i = s.definitions.length ∧ after = final) := by
  induction h generalizing i with
  | @main names final s e hp =>
    cases i with
    | zero =>
      obtain rfl := Option.some.inj ht
      exact ⟨final, hp, by simp [table], .refl _, .inr ⟨rfl, rfl⟩⟩
    | succ i => cases ht
  | @definition names names' final d s e trees hp hr ih =>
    cases i with
    | zero =>
      obtain rfl := Option.some.inj ht
      exact ⟨names', hp, by simp [table], (Names.grows_declare _ _).trans hr.grows,
        .inl ⟨d, rfl, by simp [table, hp]⟩⟩
    | succ i =>
      obtain ⟨after, hparse, hrefs, hg, hnext⟩ := ih ht
      obtain ⟨x, -, hx⟩ := Expr.derives_of_parse hp
      have htable (i : Nat) : table { s with definitions := d :: s.definitions } names (i + 1) =
          s.table (names'.declare d.name) i := by simp [table, hp]
      rw [htable, htable]
      refine ⟨after, hparse, ?_, hg, ?_⟩
      · rw [hrefs]
        simp [Names.declare, hx.refs_eq]
      · rcases hnext with hnext | ⟨rfl, hfinal⟩
        · exact .inl hnext
        · exact .inr ⟨rfl, hfinal⟩

end Script

namespace Compiler

variable {c : Compiler} {source : String} {f : Formula}

/-- The trees of a formula, one for each program, and the names of its references. -/
theorem trees_of_compile (h : c.compile source = .ok f) : ∃ script trees final,
    Script.ofSource? source = .ok script ∧ script.Reads c.names trees final ∧
      f.vars = final.vars ∧ f.references.map (·.1) = script.definitions.map (·.name) ∧
      trees.map (·.2.toProgram? c.ceiling) = f.references.map (.ok ·.2) ++ [.ok f.main] := by
  obtain ⟨script, hscript, h⟩ := Except.ok_of_bind (script_of_compile h)
  obtain ⟨⟨references, names⟩, hd, h⟩ := Except.ok_of_bind h
  obtain ⟨⟨main, final⟩, hs, h⟩ := Except.ok_of_bind h
  cases h
  obtain ⟨trees, hreads, hnames, hprograms⟩ := reads_of_definitions hd hs
  exact ⟨script, trees, final, hscript, hreads, rfl, hnames, hprograms⟩

/-- Each program is made from the expression that its segment has been read as. -/
theorem segments_of_compile (h : c.compile source = .ok f) : ∃ script,
    Script.ofSource? source = .ok script ∧ script.segments.length = f.programs.length ∧
    ∀ i s p, script.segments[i]? = some s → f.programs[i]? = some p →
      ∃ e before after, Expr.parse s before = (.ok e, after) ∧
        before.refs = (f.references.take i).map (·.1) ∧ after.Grows f.names ∧
        e.toProgram? c.ceiling = .ok p := by
  obtain ⟨script, trees, final, hscript, hreads, hvars, hnames, hprograms⟩ := trees_of_compile h
  have hfinal : final.Grows f.names := by
    have hrefs : final.refs = f.names.refs := hreads.refs_eq.trans hnames.symm
    exact ⟨hvars ▸ List.prefix_rfl, hrefs ▸ List.prefix_rfl, fun n hn => .inl (hvars ▸ hn)⟩
  have hlist : f.references.map (.ok ·.2) ++ [.ok f.main] =
      f.programs.map (Except.ok : Program → Except Error Program) := by
    simp [Formula.programs]
  rw [hlist] at hprograms
  have hlength := congrArg List.length hprograms
  refine ⟨script, hscript, ?_, fun i s p hs hp => ?_⟩
  · rw [← hreads.segments_eq]
    simpa using hlength
  · obtain ⟨e, ht⟩ := hreads.exists_tree hs
    obtain ⟨after, hparse, hrefs, hg, -⟩ := hreads.parse_table ht
    have hprogram := congrArg (·[i]?) hprograms
    have htake := congrArg (List.take i) hnames
    refine ⟨e, _, after, hparse, ?_, hg.trans hfinal, ?_⟩
    · rw [hrefs]
      simpa [List.map_take, Compiler.names] using htake.symm
    · simpa [ht, hp] using hprogram

end Compiler
end FormulaMachine
