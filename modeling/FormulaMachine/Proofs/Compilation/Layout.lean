import FormulaMachine.Proofs.Code
import FormulaMachine.Proofs.Compilation.Parts
import FormulaMachine.Proofs.Parsing.Blindness
import FormulaMachine.Proofs.Splitting.Tokens

/-!
Layout does not matter. Code is made from expressions without a look at their columns, so a text with
more blanks between its tokens is compiled to the same programs, or fails for the same reason.
-/
namespace FormulaMachine

/-- A piece without its column. -/
def Piece.bare (p : Piece) : Kind × Fragment := (p.kind, p.fragment)

theorem Piece.bare_expect {p p' : Piece} (h : p'.bare = p.bare) (kind : Kind) :
    Except.bare id (p'.expect kind) = Except.bare id (p.expect kind) := by
  have hkind : p'.kind = p.kind := (Prod.mk.inj h).1
  rw [expect, expect, hkind]
  split <;> rfl

namespace Expr

/-- Columns only get into columns. -/
theorem bare_piece? (ceiling pending used : Nat) (e : Expr) :
    Except.bare Piece.bare (e.piece? ceiling pending used) =
      Except.bare Piece.bare (e.bare.piece? ceiling pending used) := by
  induction e generalizing pending used with
  | operand c o =>
    simp only [piece?, bare]
    split
    · rfl
    · split <;> rfl
  | call c f x ih | negation c x ih =>
    refine Except.bare_bind (ih pending used) fun p p' hp => ?_
    refine Except.bare_bind (Piece.bare_expect hp .number) fun _ _ _ => congrArg Except.ok ?_
    obtain ⟨-, hfragment⟩ := Prod.mk.inj hp
    simp only [Piece.bare, hfragment]
  | call₂ c f x y ihx ihy | binary c op x y ihx ihy =>
    refine Except.bare_bind (ihx pending used) fun p p' hp => ?_
    obtain ⟨-, hfragment⟩ := Prod.mk.inj hp
    rw [hfragment]
    refine Except.bare_bind (ihy _ _) fun q q' hq => ?_
    refine Except.bare_bind (Piece.bare_expect hp _) fun _ _ _ => ?_
    refine Except.bare_bind (Piece.bare_expect hq _) fun _ _ _ => congrArg Except.ok ?_
    obtain ⟨-, hfragment'⟩ := Prod.mk.inj hq
    simp only [Piece.bare, hfragment']
  | choice c x y z ihx ihy ihz =>
    refine Except.bare_bind (ihx pending used) fun p p' hp => ?_
    obtain ⟨-, hfragment⟩ := Prod.mk.inj hp
    rw [hfragment]
    refine Except.bare_bind (ihy _ _) fun q q' hq => ?_
    obtain ⟨hkind', hfragment'⟩ := Prod.mk.inj hq
    rw [hfragment']
    refine Except.bare_bind (ihz _ _) fun r r' hr => ?_
    obtain ⟨hkind'', hfragment''⟩ := Prod.mk.inj hr
    rw [hkind', hkind'', hfragment'']
    split <;> rfl

/-- Expressions that differ in their columns only have the same program. -/
theorem bare_toProgram? {e e' : Expr} (h : e'.bare = e.bare) (ceiling : Nat) :
    Except.bare id (e'.toProgram? ceiling) = Except.bare id (e.toProgram? ceiling) := by
  have hpiece : Except.bare Piece.bare (e'.piece? ceiling 0 0) =
      Except.bare Piece.bare (e.piece? ceiling 0 0) := by
    rw [bare_piece?, h, ← bare_piece?]
  rw [toProgram?_eq, toProgram?_eq]
  refine Except.bare_bind hpiece fun p p' hp => ?_
  obtain ⟨-, hfragment⟩ := Prod.mk.inj hp
  rw [hfragment]

end Expr

theorem Segment.alike_of_ink {s s' : Segment}
    (h : Token.ink s'.text.toList = Token.ink s.text.toList) :
    Placed.Alike s'.tokens s.tokens := by
  rw [Placed.Alike, tokens, tokens, Placed.map_token_all, Placed.map_token_all]
  exact h

/-- A formula without its source. -/
def Formula.bare (f : Formula) : List String × List (String × Program) × Program :=
  (f.vars, f.references, f.main)

namespace Compiler

theorem bare_segment (c : Compiler) {s s' : Segment}
    (h : Token.ink s'.text.toList = Token.ink s.text.toList) (names : Names) :
    Except.bare id (c.segment s' names) = Except.bare id (c.segment s names) := by
  obtain ⟨hparse, hnames⟩ := Expr.parse_alike (Segment.alike_of_ink h) names
  rw [segment, segment]
  generalize Expr.parse s names = o at hparse hnames ⊢
  generalize Expr.parse s' names = o' at hparse hnames ⊢
  obtain ⟨e | x, left⟩ := o <;> obtain ⟨e' | x', left'⟩ := o'
  · exact congrArg Except.error (Except.error.inj hparse)
  · cases hparse
  · cases hparse
  · obtain rfl : left' = left := hnames
    refine Except.bare_bind (Expr.bare_toProgram? (Except.ok.inj hparse) c.ceiling) ?_
    rintro p _ rfl
    rfl

theorem bare_definitions (c : Compiler) {ds ds' : List Definition}
    (h : ds'.map Definition.bare = ds.map Definition.bare) (names : Names) :
    Except.bare id (c.definitions names ds') = Except.bare id (c.definitions names ds) := by
  induction ds generalizing ds' names with
  | nil =>
    obtain rfl := List.map_eq_nil_iff.mp h
    rfl
  | cons d ds ih =>
    obtain ⟨d', ds', rfl, hd, hds⟩ := List.map_eq_cons_iff.mp h
    obtain ⟨hname, hink⟩ := Prod.mk.inj hd
    refine Except.bare_bind (c.bare_segment hink names) ?_
    rintro ⟨program, left⟩ _ rfl
    rw [hname]
    refine Except.bare_bind (ih hds _) ?_
    rintro ⟨references, left⟩ _ rfl
    rfl

theorem bare_script (c : Compiler) {source source' : String}
    (h : Spread source.toList source'.toList) :
    Except.bare Formula.bare (c.script source') = Except.bare Formula.bare (c.script source) := by
  refine Except.bare_bind (Script.bare_ofSource? h) fun s s' hs => ?_
  obtain ⟨hdefinitions, hmain⟩ := Prod.mk.inj hs
  refine Except.bare_bind (c.bare_definitions hdefinitions c.names) ?_
  rintro ⟨references, left⟩ _ rfl
  refine Except.bare_bind (c.bare_segment hmain left) ?_
  rintro ⟨main, final⟩ _ rfl
  rfl

theorem bare_compile (c : Compiler) (source : String) :
    Except.bare Formula.bare (c.compile source) = Except.bare Formula.bare (c.script source) := by
  rw [compile_eq]
  cases c.script source <;> rfl

/-- A source that is spread is compiled to the same variables, references and programs, or it is
refused with an error of the same kind and detail. -/
theorem compile_spread (c : Compiler) {source source' : String}
    (h : Spread source.toList source'.toList) :
    match c.compile source, c.compile source' with
    | .ok f, .ok f' => f'.vars = f.vars ∧ f'.references = f.references ∧ f'.main = f.main
    | .error e, .error e' => e'.kind = e.kind ∧ e'.detail = e.detail
    | _, _ => False := by
  have hbare := c.bare_script h
  rw [← bare_compile, ← bare_compile] at hbare
  generalize c.compile source = o at hbare ⊢
  generalize c.compile source' = o' at hbare ⊢
  obtain e | f := o <;> obtain e' | f' := o'
  · exact Prod.mk.inj (Except.error.inj hbare)
  · cases hbare
  · cases hbare
  · obtain ⟨hvars, hprograms⟩ := Prod.mk.inj (Except.ok.inj hbare)
    exact ⟨hvars, Prod.mk.inj hprograms⟩

/-- Blanks of several kinds beside the name, the colon, the semicolon and an operator of two
characters. -/
theorem compile_spread_comparison :
    let source := "a:x;a<=.5"
    let source' := " a\t: x;\n\na <= .5 "
    Spread source.toList source'.toList ∧
      ∃ f f', compile { vars := ["x"] } source = .ok f ∧
        compile { vars := ["x"] } source' = .ok f' ∧
        f'.vars = f.vars ∧ f'.references = f.references ∧ f'.main = f.main := by
  intro source source'
  have blanks {gap : List Char} (h : gap.all Text.isBlank = true) :
      ∀ c ∈ gap, Text.isBlank c := List.all_eq_true.mp h
  have hspread : Spread ['a', ':', 'x', ';', 'a', '<', '=', '.', '5']
      ([' '] ++ ['a'] ++ (['\t'] ++ [':'] ++ ([' '] ++ ['x'] ++ ([] ++ [';'] ++
        (['\n', '\n'] ++ ['a'] ++ ([' '] ++ ['<', '='] ++ ([' '] ++ ['.', '5'] ++ [' '])))))))
    :=
    .cons (blanks rfl) rfl (.cons (blanks rfl) rfl (.cons (blanks rfl) rfl (.cons (blanks rfl) rfl
      (.cons (blanks rfl) rfl (.cons (blanks rfl) rfl (.cons (blanks rfl) rfl
        (.nil (blanks rfl))))))))
  have hsource : source.toList = ['a', ':', 'x', ';', 'a', '<', '=', '.', '5'] := by decide
  have hsource' : source'.toList = [' ', 'a', '\t', ':', ' ', 'x', ';', '\n', '\n', 'a', ' ', '<',
    '=', ' ', '.', '5', ' '] := by decide
  have hs : Spread source.toList source'.toList := by
    rw [hsource, hsource']
    exact hspread
  have hok : (compile { vars := ["x"] } source).isOk = true := by decide +kernel
  obtain ⟨f, hf⟩ := Except.exists_ok_of_isOk hok
  have hc := compile_spread { vars := ["x"] } hs
  rw [hf] at hc
  generalize compile { vars := ["x"] } source' = o at hc ⊢
  obtain e | f' := o
  · exact hc.elim
  · exact ⟨hs, f, f', hf, rfl, hc⟩

end Compiler
end FormulaMachine
