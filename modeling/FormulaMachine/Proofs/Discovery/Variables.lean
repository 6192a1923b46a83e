import FormulaMachine.Proofs.Compilation.Segments
import FormulaMachine.Proofs.Lexing.Identifiers

/-!
Where variables come from. What is found in a source is an identifier of it that means nothing else,
and the source that is nothing but such an identifier is that variable.
-/
namespace FormulaMachine

/-- An identifier that no constant, choice or function has for a name. -/
def IsVariableName (name : String) : Prop := isName name.toList ∧ name ∉ reserved

/-- The names that are to be looked up, from left to right. -/
def Phrase.names : Phrase → List String
  | literal _ _ | pi _ | euler _ => []
  | name _ n => [n]
  | call _ _ x | negation _ x => x.names
  | call₂ _ _ x y | binary _ _ x y => x.names ++ y.names
  | choice _ condition yes no => condition.names ++ yes.names ++ no.names

/-- Each name is an identifier among the tokens. -/
theorem Derives.identifier_of_mem {room : Nat} {k : Rank} {xs : List Placed} {x : Phrase}
    (h : Derives room k xs x) {n : String} (hn : n ∈ x.names) :
    n ∉ reserved ∧ .identifier n ∈ xs.map (·.token) := by
  induction h with
  | lone _ _ ih => exact ih hn
  | join _ _ _ _ ihx ihy | compare _ _ _ ihx ihy | exponent _ _ ihx ihy =>
    rw [List.map_append, List.map_cons]
    rcases List.mem_append.mp hn with hn | hn
    · obtain ⟨hr, hm⟩ := ihx hn
      exact ⟨hr, List.mem_append_left _ hm⟩
    · obtain ⟨hr, hm⟩ := ihy hn
      exact ⟨hr, List.mem_append_right _ (List.mem_cons_of_mem _ hm)⟩
  | signed _ _ _ ih | negated _ _ _ _ ih =>
    obtain ⟨hr, hm⟩ := ih hn
    rw [List.map_append]
    exact ⟨hr, List.mem_append_right _ hm⟩
  | literal | pi | euler => cases hn
  | name h =>
    obtain rfl := List.mem_singleton.mp hn
    exact ⟨h, List.mem_singleton_self _⟩
  | parenthesized _ ih | call _ ih =>
    obtain ⟨hr, hm⟩ := ih hn
    exact ⟨hr, by simp [List.mem_map.mp hm]⟩
  | call₂ _ _ ihx ihy =>
    rcases List.mem_append.mp hn with hn | hn
    · obtain ⟨hr, hm⟩ := ihx hn
      exact ⟨hr, by simp [List.mem_map.mp hm]⟩
    · obtain ⟨hr, hm⟩ := ihy hn
      exact ⟨hr, by simp [List.mem_map.mp hm]⟩
  | choice _ _ _ ihx ihy ihz =>
    rcases List.mem_append.mp hn with hn | hn
    · rcases List.mem_append.mp hn with hn | hn
      · obtain ⟨hr, hm⟩ := ihx hn
        exact ⟨hr, by simp [List.mem_map.mp hm]⟩
      · obtain ⟨hr, hm⟩ := ihy hn
        exact ⟨hr, by simp [List.mem_map.mp hm]⟩
    · obtain ⟨hr, hm⟩ := ihz hn
      exact ⟨hr, by simp [List.mem_map.mp hm]⟩

theorem Segment.isVariableName {s : Segment} {room : Nat} {k : Rank} {x : Phrase} {n : String}
    (h : Derives room k s.tokens x) (hn : n ∈ x.names) : IsVariableName n := by
  obtain ⟨hr, hm⟩ := h.identifier_of_mem hn
  rw [tokens, Placed.map_token_all] at hm
  exact ⟨Token.isName_of_mem_lex (List.mem_filter.mp hm).1, hr⟩

theorem Names.vars_of_resolve {names names' : Names} {name n : String} {b : Binding}
    (h : names.resolve name = (some b, names')) (hn : n ∈ names'.vars) :
    n ∈ names.vars ∨ n = name := by
  rcases resolve_cases h with ⟨i, -, -, rfl⟩ | ⟨i, -, -, -, rfl⟩ | ⟨-, -, -, -, rfl⟩
  · exact .inl hn
  · exact .inl hn
  · rcases List.mem_append.mp hn with hn | hn
    · exact .inl hn
    · exact .inr (List.mem_singleton.mp hn)

/-- A variable that is found while names are looked up is one of these names. -/
theorem Resolves.vars_cases {names names' : Names} {x : Phrase} {e : Expr} {n : String}
    (h : Resolves names x e names') (hn : n ∈ names'.vars) : n ∈ names.vars ∨ n ∈ x.names := by
  induction h with
  | literal | pi | euler => exact .inl hn
  | name h =>
    rcases Names.vars_of_resolve h hn with hn | rfl
    · exact .inl hn
    · exact .inr (List.mem_singleton_self _)
  | call _ ih | negation _ ih => exact ih hn
  | call₂ _ _ ihx ihy | binary _ _ ihx ihy =>
    rcases ihy hn with hn | hn
    · rcases ihx hn with hn | hn
      · exact .inl hn
      · exact .inr (List.mem_append_left _ hn)
    · exact .inr (List.mem_append_right _ hn)
  | choice _ _ _ ihx ihy ihz =>
    rcases ihz hn with hn | hn
    · rcases ihy hn with hn | hn
      · rcases ihx hn with hn | hn
        · exact .inl hn
        · exact .inr (List.mem_append_left _ (List.mem_append_left _ hn))
      · exact .inr (List.mem_append_left _ (List.mem_append_right _ hn))
    · exact .inr (List.mem_append_right _ hn)

theorem Expr.vars_of_parse {s : Segment} {names names' : Names} {e : Expr} {n : String}
    (h : parse s names = (.ok e, names')) (hn : n ∈ names'.vars) :
    n ∈ names.vars ∨ IsVariableName n := by
  obtain ⟨x, hx, hr⟩ := derives_of_parse h
  rcases hr.vars_cases hn with hn | hn
  · exact .inl hn
  · exact .inr (s.isVariableName hx hn)

theorem Script.Reads.vars_cases {names final : Names} {s : Script} {trees : List (Segment × Expr)}
    {n : String} (h : s.Reads names trees final) (hn : n ∈ final.vars) :
    n ∈ names.vars ∨ IsVariableName n := by
  induction h with
  | main hp => exact Expr.vars_of_parse hp hn
  | definition hp _ ih =>
    rcases ih hn with hn | hn
    · exact Expr.vars_of_parse hp hn
    · exact .inr hn

theorem Script.pieces_of_not_mem {cs : List Char} (h : ';' ∉ cs) (depth : Int) :
    pieces depth cs = (cs, []) := by
  induction cs generalizing depth with
  | nil => rfl
  | cons c cs ih =>
    have hc : c ≠ ';' := by
      rintro rfl
      exact h List.mem_cons_self
    have hcs : ';' ∉ cs := fun hm => h (List.mem_cons_of_mem _ hm)
    simp only [pieces, hc, false_and, if_false, ih hcs]

/-- A source without semicolons is nothing but a main expression. -/
theorem Script.ofSource?_of_not_mem {source : String} (h : ';' ∉ source.toList) :
    ofSource? source = .ok { definitions := [], main := ⟨source, 0⟩ } := by
  simp only [ofSource?, pieces_of_not_mem h, ofPieces?, String.ofList_toList]

theorem Derives.single {name : String} {c : Column} (h : name ∉ reserved) :
    Derives Parser.maxNesting .expression [⟨.identifier name, c⟩] (.name c name) := by
  have hpower : Derives Parser.maxNesting .power [⟨.identifier name, c⟩] (.name c name) :=
    .lone rfl (.name h)
  have hunary : Derives Parser.maxNesting .unary ([] ++ [⟨.identifier name, c⟩]) (.name c name) :=
    .signed nofun rfl hpower
  exact .lone rfl (.lone rfl (.lone rfl (.lone rfl hunary)))

theorem Expr.piece?_var (ceiling : Nat) (c : Column) (i : Nat) :
    (operand c (.var i)).piece? ceiling 0 0 = .ok ⟨c, .number, Operand.fragment (.var i)⟩ := by
  simp [piece?, Operand.isLiteral, maxPending]

/-- A variable is loaded as it is, and looked at for being a NaN. -/
theorem Program.run_var {env : Environment} {i : Nat} {x : Float} (h : env.vars[i]? = some x)
    (random : RandomSource) : Program.run { code := [.var i], constants := [] } env random =
      (.ok { value := if x.isNaN then 0 else x, sawNaN := x.isNaN }, random) := by
  obtain ⟨hi, -⟩ := List.getElem?_eq_some_iff.mp h
  have hrun := run_of_piece? (Expr.piece?_var 0 ⟨0, 0⟩ i) (Expr.bound_operand.mpr hi) random
  refine hrun.trans ?_
  simp [Expr.evaluate, Expr.eval, Evaluator.produce, Course.note, Operand.value, maxOperands, h]

namespace Compiler

variable {c : Compiler} {source : String} {f : Formula}

theorem reads_of_compile (h : c.compile source = .ok f) : ∃ script trees final,
    Script.ofSource? source = .ok script ∧ script.Reads c.names trees final ∧
      f.vars = final.vars ∧
      trees.map (·.2.toProgram? c.ceiling) = f.references.map (.ok ·.2) ++ [.ok f.main] := by
  obtain ⟨script, trees, final, hscript, hreads, hvars, -, hprograms⟩ := trees_of_compile h
  exact ⟨script, trees, final, hscript, hreads, hvars, hprograms⟩

theorem vars_isPrefix_of_compile (h : c.compile source = .ok f) : c.vars <+: f.vars := by
  obtain ⟨script, trees, final, -, hreads, hvars, -⟩ := reads_of_compile h
  rw [hvars]
  exact hreads.grows.vars

theorem vars_cases_of_compile (h : c.compile source = .ok f) {n : String} (hn : n ∈ f.vars) :
    n ∈ c.vars ∨ IsVariableName n := by
  obtain ⟨script, trees, final, -, hreads, hvars, -⟩ := reads_of_compile h
  rw [hvars] at hn
  exact hreads.vars_cases hn

theorem compile_of_isVariableName {name : String} {i : Nat} {names : Names}
    (h : IsVariableName name) (hr : c.names.resolve name = (some (.var i), names)) :
    c.compile name = .ok { source := name, vars := names.vars, references := [],
                           main := { code := [.var i], constants := [] } } := by
  obtain ⟨hname, hreserved⟩ := h
  have hsemicolon : ';' ∉ name.toList := fun hm => by
    have hi := isNameChar_of_isName hname _ hm
    cases hi
  have htokens : Segment.tokens ⟨name, 0⟩ = [⟨.identifier name, 0, 0 + name.length⟩] := by
    simp only [Segment.tokens, Token.lex_of_isName hname]
    rfl
  have hparse : Expr.parse ⟨name, 0⟩ c.names =
      (.ok (.operand ⟨0, 0 + name.length⟩ (.var i)), names) :=
    Expr.parse_of_derives (htokens ▸ Derives.single hreserved) (.name hr)
  have hprogram : (Expr.operand ⟨0, 0 + name.length⟩ (.var i)).toProgram? c.ceiling =
      .ok { code := [.var i], constants := [] } :=
    Expr.toProgram?_of_piece? (Expr.piece?_var _ _ _)
  simp only [compile_eq, script, Script.ofSource?_of_not_mem hsemicolon, bind, Except.bind,
    definitions, segment, hparse, hprogram]
  rfl

end Compiler
end FormulaMachine
