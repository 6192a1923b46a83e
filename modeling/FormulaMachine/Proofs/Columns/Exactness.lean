import FormulaMachine.Proofs.Compilation
import FormulaMachine.Proofs.Lexing.Words
import FormulaMachine.Proofs.Marks

/-!
Columns are exact. In the column of a part of an expression stands the token that introduced it,
whatever blanks stand between the tokens and wherever in the source the segment begins.
-/
namespace FormulaMachine

/-- The characters that stand in a column. -/
def Column.slice (c : Column) (cs : List Char) : List Char :=
  (cs.drop c.start).take (c.stop - c.start)

theorem Column.slice_append (front word back : List Char) :
    slice ⟨front.length, front.length + word.length⟩ (front ++ word ++ back) = word := by
  simp [slice, List.append_assoc]

/-! ### Tokens in a source -/

/-- A token that is not blank stands between what comes before and what comes behind it. -/
theorem Placed.exists_of_mem_all {ts : List Token} {cs : List Char} {p : Placed} {offset : Nat}
    (h : Token.Spelling ts cs) (hp : p ∈ all offset ts) :
    ∃ front back, cs = front ++ p.token.text.toList ++ back ∧
      p.column = ⟨offset + front.length,
        offset + front.length + p.token.text.toList.length⟩ := by
  induction h generalizing offset with
  | nil => cases hp
  | @cons t ts w cs _ hs _ ih =>
    have later (hp : p ∈ all (offset + t.width) ts) :
        ∃ front back, w ++ cs = front ++ p.token.text.toList ++ back ∧
          p.column = ⟨offset + front.length,
            offset + front.length + p.token.text.toList.length⟩ := by
      obtain ⟨front, back, rfl, hc⟩ := ih hp
      refine ⟨w ++ front, back, by simp only [List.append_assoc], ?_⟩
      rw [hc, hs.width_eq, List.length_append, Nat.add_assoc offset]
    simp only [all] at hp
    split at hp
    · exact later hp
    · next hb =>
      rcases List.mem_cons.mp hp with rfl | hp
      · have hw := hs.text_eq (by simpa using hb)
        refine ⟨[], cs, by rw [hw, List.nil_append], ?_⟩
        simp only [hs.width_eq, hw, List.length_nil, Nat.add_zero]
      · exact later hp

/-- The text of a segment stands at its offset in the characters from `offset` on. -/
def Segment.StandsIn (s : Segment) (offset : Nat) (cs : List Char) : Prop :=
  ∃ front back, cs = front ++ s.text.toList ++ back ∧ s.offset = offset + front.length

theorem Segment.StandsIn.slice_eq {s : Segment} {cs : List Char} {p : Placed}
    (h : s.StandsIn 0 cs) (hp : p ∈ s.tokens) : p.column.slice cs = p.token.text.toList := by
  obtain ⟨front, back, rfl, ho⟩ := h
  obtain ⟨front', back', ht, hc⟩ := Placed.exists_of_mem_all (Token.spelling_lex _) hp
  rw [Nat.zero_add] at ho
  rw [hc, ho, ht]
  have hs := Column.slice_append (front ++ front') p.token.text.toList (back' ++ back)
  rw [List.length_append] at hs
  simpa only [List.append_assoc] using hs

theorem Segment.StandsIn.widen {s : Segment} {offset : Nat} {cs : List Char} (piece : List Char)
    (h : s.StandsIn (offset + piece.length + 1) cs) :
    s.StandsIn offset (piece ++ ';' :: cs) := by
  obtain ⟨front, back, rfl, ho⟩ := h
  refine ⟨piece ++ ';' :: front, back, by simp, ?_⟩
  rw [ho, List.length_append, List.length_cons]
  omega

theorem Definition.Written.standsIn {offset : Nat} {piece : List Char} {d : Definition}
    (h : Written offset piece d) (rest : List Char) :
    d.toSegment.StandsIn offset (piece ++ rest) := by
  cases h with
  | @intro before name after text _ _ _ =>
    refine ⟨before ++ name ++ after ++ [':'], rest, by simp, ?_⟩
    simp only [List.length_append, List.length_singleton]
    omega

theorem Script.Written.standsIn {offset : Nat} {cs : List Char} {script : Script}
    (h : Written offset cs script) :
    (∀ d ∈ script.definitions, d.toSegment.StandsIn offset cs) ∧
      script.main.StandsIn offset cs := by
  induction h with
  | main => exact ⟨nofun, [], [], by simp, rfl⟩
  | @definition offset piece rest d s hd _ ih =>
    refine ⟨fun d' hd' => ?_, ih.2.widen piece⟩
    rcases List.mem_cons.mp hd' with rfl | hd'
    · exact hd.standsIn _
    · exact (ih.1 d' hd').widen piece

/-! ### Parts of an expression -/

/-- A plus or minus that is not the operator of two operands in the expression. -/
def Expr.IsSign (e : Expr) (p : Placed) : Prop :=
  p.isSign ∧ ∀ part ∈ e.postorder, part.column = p.column → part.isBinary = false

/-- A minus in the given column, with no other before it in the same run of signs: what stands
between them, both included, is not signs only. -/
def Expr.FirstMinus (e : Expr) (xs : List Placed) (c : Column) : Prop :=
  ∃ before after, xs = before ++ ⟨.operator .subtract, c⟩ :: after ∧
    ∀ front minus back, before = front ++ minus :: back → minus.isMinus →
      ∃ p ∈ minus :: back, ¬e.IsSign p

/-- In the column of each part of an expression stands the token that introduces it, and no two
parts have the same column. -/
structure Expr.Exact (e : Expr) (s : Segment) (names : Names) (source : String) : Prop where
  token : ∀ part ∈ e.postorder, ∃ p ∈ s.tokens, p.column = part.column ∧
    part.IntroducedBy names p.token ∧ part.column.slice source.toList = p.token.text.toList
  minus : ∀ c x, .negation c x ∈ e.postorder → e.FirstMinus s.tokens c
  distinct : (e.postorder.map Expr.column).Nodup

theorem Placed.Ordered.nodup {lo hi : Nat} {ps : List Placed} (h : Ordered lo hi ps) :
    (ps.map (·.column)).Nodup := by
  induction ps generalizing lo with
  | nil => exact List.nodup_nil
  | cons p ps ih =>
    obtain ⟨-, hp, hps⟩ := h
    refine List.nodup_cons.mpr ⟨fun hm => ?_, ih hps⟩
    obtain ⟨q, hq, hc⟩ := List.mem_map.mp hm
    have hc : q.column = p.column := hc
    have hle := (hps.of_mem hq).1
    rw [hc] at hle
    omega

section
variable {names : Names} {xs : List Placed} {es : List Expr} {ms : List Mark} {m : Mark}
  {e : Expr} {c : Column}

theorem Marking.exists_mark (h : Marking names xs es ms) (he : e ∈ es) :
    ∃ m ∈ ms, m.part? = some e ∧ m.placed ∈ xs := by
  obtain ⟨m, hm, hpart⟩ := List.mem_filterMap.mp (h.parts.mem_iff.mpr he)
  exact ⟨m, hm, hpart, h.tokens ▸ List.mem_map_of_mem hm⟩

theorem Mark.columns_sublist (h : ∀ m ∈ ms, m.Fits names) :
    ((ms.filterMap (·.part?)).map Expr.column).Sublist (ms.map (·.placed.column)) := by
  induction ms with
  | nil => exact .slnil
  | cons m ms ih =>
    have ih := ih fun n hn => h n (List.mem_cons_of_mem _ hn)
    rw [List.filterMap_cons]
    cases hpart : m.part? with
    | none => exact ih.cons _
    | some e =>
      rw [List.map_cons, List.map_cons, (h m List.mem_cons_self e hpart).1]
      exact ih.cons_cons _

theorem Marking.columns (h : Marking names xs es ms) (hxs : (xs.map (·.column)).Nodup) :
    (es.map Expr.column).Nodup := by
  have hcolumns : (ms.map (·.placed.column)).Nodup := by
    have ht := congrArg (List.map (·.column)) h.tokens
    rw [List.map_map] at ht
    exact ht ▸ hxs
  have hparts := (Mark.columns_sublist h.fits).nodup hcolumns
  exact (h.parts.map Expr.column).nodup_iff.mp hparts

theorem Marking.firstMinus (h : Marking names xs e.postorder ms) {x : Expr}
    (hx : .negation c x ∈ e.postorder) : e.FirstMinus xs c := by
  obtain ⟨m, hm, hpart, -⟩ := h.exists_mark hx
  obtain ⟨before, after, rfl⟩ := List.append_of_mem hm
  obtain ⟨hc, hi⟩ := h.fits m hm _ hpart
  have hplaced : m.placed = ⟨.operator .subtract, c⟩ := by
    obtain ⟨⟨t, c'⟩, part⟩ := m
    cases hc
    cases hi
    rfl
  refine ⟨before.map (·.placed), after.map (·.placed), ?_, fun front minus back hb hminus => ?_⟩
  · rw [← h.tokens, List.map_append, List.map_cons, hplaced]
  · obtain ⟨front, rest, rfl, rfl, hrest⟩ := List.map_eq_append_iff.mp hb
    obtain ⟨k, back, rfl, rfl, rfl⟩ := List.map_eq_cons_iff.mp hrest
    have hneg : m.isNegation := by simp [Mark.isNegation, hpart, Expr.isNegation]
    obtain ⟨n, hn, hs⟩ := h.leading.exists_between hneg hminus
    refine ⟨n.placed, List.mem_map_of_mem hn, fun ⟨hsign, hbinary⟩ => ?_⟩
    have hmem : n ∈ front ++ k :: back ++ m :: after :=
      List.mem_append_left _ (List.mem_append_right _ hn)
    cases hn : n.part? with
    | none => simp [Mark.isSign, hn, hsign] at hs
    | some d =>
      have hd : d ∈ e.postorder := h.parts.mem_iff.mp (List.mem_filterMap.mpr ⟨n, hmem, hn⟩)
      have hb := hbinary d hd (h.fits n hmem d hn).1
      simp [Mark.isSign, hn, hsign, hb] at hs

theorem Expr.exact_of_parse {s : Segment} {source : String} {names names' final : Names}
    (h : parse s names = (.ok e, names')) (hf : names'.Grows final)
    (hs : s.StandsIn 0 source.toList) : e.Exact s final source := by
  obtain ⟨x, hx, hr⟩ := derives_of_parse h
  obtain ⟨ms, hms⟩ := hx.marked hr hf
  refine ⟨fun part hpart => ?_, fun c y hy => hms.firstMinus hy, hms.columns s.ordered.nodup⟩
  obtain ⟨m, hm, hpart, hp⟩ := hms.exists_mark hpart
  obtain ⟨hc, hi⟩ := hms.fits m hm part hpart
  exact ⟨m.placed, hp, hc.symm, hi, hc ▸ hs.slice_eq hp⟩

end

/-! ### Whole sources -/

/-- The variables and references of a formula, each at its place. -/
def Formula.names (f : Formula) : Names := { vars := f.vars, refs := f.references.map (·.1) }

/-- The expressions that are read from the segments of a script, and the names known in the end. -/
inductive Script.Reads : Names → Script → List (Segment × Expr) → Names → Prop
  | main {names final : Names} {s : Segment} {e : Expr} :
    Expr.parse s names = (.ok e, final) → Reads names { definitions := [], main := s } [(s, e)] final
  | definition {names names' final : Names} {d : Definition} {s : Script} {e : Expr}
      {trees : List (Segment × Expr)} :
    Expr.parse d.toSegment names = (.ok e, names') →
    Reads (names'.declare d.name) s trees final →
    Reads names { s with definitions := d :: s.definitions } ((d.toSegment, e) :: trees) final

namespace Script.Reads

variable {names final : Names} {s : Script} {trees : List (Segment × Expr)}

theorem grows (h : s.Reads names trees final) : names.Grows final := by
  induction h with
  | main hp =>
    obtain ⟨x, -, hr⟩ := Expr.derives_of_parse hp
    exact hr.grows
  | definition hp _ ih =>
    obtain ⟨x, -, hr⟩ := Expr.derives_of_parse hp
    exact (hr.grows.trans (Names.grows_declare _ _)).trans ih

theorem refs_eq (h : s.Reads names trees final) :
    final.refs = names.refs ++ s.definitions.map (·.name) := by
  induction h with
  | main hp =>
    obtain ⟨x, -, hr⟩ := Expr.derives_of_parse hp
    simp [hr.refs_eq]
  | definition hp _ ih =>
    obtain ⟨x, -, hr⟩ := Expr.derives_of_parse hp
    simp [ih, Names.declare, hr.refs_eq]

/-- A table that has grown further shows the names of the trees before as well. -/
theorem exact {source : String} {table : Names} (h : s.Reads names trees final)
    (ht : final.Grows table) (hd : ∀ d ∈ s.definitions, d.toSegment.StandsIn 0 source.toList)
    (hm : s.main.StandsIn 0 source.toList) : ∀ t ∈ trees, t.2.Exact t.1 table source := by
  induction h with
  | main hp =>
    intro t hmem
    rw [List.mem_singleton.mp hmem]
    exact Expr.exact_of_parse hp ht hm
  | definition hp hs ih =>
    intro t hmem
    rcases List.mem_cons.mp hmem with rfl | hmem
    · have hg := ((Names.grows_declare _ _).trans hs.grows).trans ht
      exact Expr.exact_of_parse hp hg (hd _ List.mem_cons_self)
    · exact ih ht (fun d hd' => hd d (List.mem_cons_of_mem _ hd')) hm t hmem

end Script.Reads

namespace Compiler

variable {c : Compiler} {names names' final : Names} {s : Segment} {p : Program}

/-- The programs are made from the trees, one from each. -/
theorem reads_of_definitions {ds : List Definition} {references : List (String × Program)}
    (hd : c.definitions names ds = .ok (references, names'))
    (hs : c.segment s names' = .ok (p, final)) :
    ∃ trees, Script.Reads names ⟨ds, s⟩ trees final ∧
      references.map (·.1) = ds.map (·.name) ∧
      trees.map (·.2.toProgram? c.ceiling) = references.map (.ok ·.2) ++ [.ok p] := by
  induction ds generalizing names references with
  | nil =>
    cases hd
    obtain ⟨e, hp, hq⟩ := segment_ok hs
    exact ⟨[(s, e)], .main hp, rfl, by simp [hq]⟩
  | cons d ds ih =>
    obtain ⟨⟨q, names₁⟩, hq, hd⟩ := Except.ok_of_bind hd
    obtain ⟨⟨qs, names₂⟩, hqs, hd⟩ := Except.ok_of_bind hd
    cases hd
    obtain ⟨e, hp, he⟩ := segment_ok hq
    obtain ⟨trees, hreads, hnames, hprograms⟩ := ih hqs
    exact ⟨(d.toSegment, e) :: trees, .definition hp hreads, by simp [hnames],
      by simp [he, hprograms]⟩

/-- The columns of a formula that has been compiled are exact, in every tree that a program of it
was made from. -/
theorem columns_exact {source : String} {f : Formula} (h : c.compile source = .ok f) :
    ∃ script trees final, Script.ofSource? source = .ok script ∧
      script.Reads c.names trees final ∧
      trees.map (·.2.toProgram? c.ceiling) = f.references.map (.ok ·.2) ++ [.ok f.main] ∧
      ∀ t ∈ trees, t.2.Exact t.1 f.names source := by
  obtain ⟨script, hscript, h⟩ := Except.ok_of_bind (script_of_compile h)
  obtain ⟨⟨references, names⟩, hd, h⟩ := Except.ok_of_bind h
  obtain ⟨⟨main, final⟩, hs, h⟩ := Except.ok_of_bind h
  cases h
  have hw := Script.blamed_ofSource? source
  rw [hscript] at hw
  obtain ⟨hdefinitions, hmain⟩ := hw.standsIn
  obtain ⟨trees, hreads, hnames, hprograms⟩ := reads_of_definitions hd hs
  have hrefs : final.refs = references.map (·.1) := hreads.refs_eq.trans hnames.symm
  refine ⟨script, trees, final, hscript, hreads, hprograms, ?_⟩
  refine hreads.exact ⟨List.prefix_rfl, ?_, fun n hn => .inl hn⟩ hdefinitions hmain
  exact hrefs ▸ List.prefix_rfl

/-- Blanks of several kinds stand between the tokens, and a run of three signs negates. -/
theorem columns_exact_blank : ∃ f,
    compile { vars := ["x"] } "a :\u00a02 * x;\u2003-\u3000-- a + x" = .ok f ∧
    ∃ script trees final,
      Script.ofSource? "a :\u00a02 * x;\u2003-\u3000-- a + x" = .ok script ∧
      script.Reads (Compiler.names { vars := ["x"] }) trees final ∧
      trees.map (·.2.toProgram? 100) = f.references.map (.ok ·.2) ++ [.ok f.main] ∧
      ∀ t ∈ trees, t.2.Exact t.1 f.names "a :\u00a02 * x;\u2003-\u3000-- a + x" := by
  have h : (compile { vars := ["x"] } "a :\u00a02 * x;\u2003-\u3000-- a + x").isOk = true := by
    decide +kernel
  obtain ⟨f, hf⟩ := Except.exists_ok_of_isOk h
  exact ⟨f, hf, columns_exact hf⟩

end Compiler
end FormulaMachine
