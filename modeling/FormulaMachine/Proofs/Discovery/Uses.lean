import FormulaMachine.Proofs.Discovery.Variables

/-!
Which variables are found in a source, and in which order. They are the names that are looked up
where no definition before has them, each at its first use.
-/
namespace FormulaMachine

/-- The name that a token is, if it is to be looked up. -/
def Placed.name? (p : Placed) : Option String :=
  match p.token with
  | .identifier name => if name ∈ reserved then none else some name
  | _ => none

/-- The names that are looked up in a segment, from left to right. -/
def Segment.names (s : Segment) : List String := s.tokens.filterMap Placed.name?

namespace Script

/-- The names that are looked up in the segments that are left, without those that a definition
before has. The definitions made already have the names in `defined`. -/
def usesFrom (defined : List String) (main : Segment) : List Definition → List String
  | [] => main.names.filter (· ∉ defined)
  | d :: ds =>
    d.toSegment.names.filter (· ∉ defined) ++ usesFrom (defined ++ [d.name]) main ds

def uses (s : Script) : List String := usesFrom [] s.main s.definitions

end Script

namespace Placed

theorem name?_of_isSign {p : Placed} (h : p.isSign) : p.name? = none := by
  obtain ⟨token, column⟩ := p
  cases token with
  | operator op => rfl
  | unknown | blank | literal | identifier | leftParen | rightParen | comma => cases h

theorem names_signs {run : List Placed} (h : ∀ p ∈ run, p.isSign) : run.filterMap name? = [] :=
  List.filterMap_eq_nil_iff.mpr fun p hp => name?_of_isSign (h p hp)

@[simp] theorem name?_leftParen (c : Column) : name? ⟨.leftParen, c⟩ = none := rfl

@[simp] theorem name?_rightParen (c : Column) : name? ⟨.rightParen, c⟩ = none := rfl

@[simp] theorem name?_comma (c : Column) : name? ⟨.comma, c⟩ = none := rfl

theorem name?_of_reserved {name : String} (h : name ∈ reserved) (c : Column) :
    name? ⟨.identifier name, c⟩ = none := by
  simp only [name?, if_pos h]

theorem name?_builtin (f : Builtin) (c : Column) : name? ⟨.identifier f.name, c⟩ = none := by
  refine name?_of_reserved (Decidable.byContradiction fun hf => ?_) c
  obtain ⟨-, -, -, hf⟩ := Parser.not_mem_reserved.mp hf
  rw [Builtin.ofName?_name] at hf
  cases hf

end Placed

/-- The tokens of a phrase show which names it looks up. -/
theorem Derives.names_eq {room : Nat} {k : Rank} {xs : List Placed} {x : Phrase}
    (h : Derives room k xs x) : x.names = xs.filterMap Placed.name? := by
  induction h with
  | lone _ _ ih => exact ih
  | join _ _ _ _ ihx ihy | compare _ _ _ ihx ihy | exponent _ _ ihx ihy =>
    rw [Phrase.names, ihx, ihy, List.filterMap_append]
    rfl
  | signed hrun _ _ ih =>
    rw [ih, List.filterMap_append, Placed.names_signs hrun, List.nil_append]
  | negated hrun _ _ _ ih =>
    rw [Phrase.names, ih, List.filterMap_append, Placed.names_signs hrun, List.nil_append]
  | literal => rfl
  | pi | euler =>
    rw [List.filterMap_cons_none (Placed.name?_of_reserved (by decide) _)]
    rfl
  | name h => simp [Phrase.names, Placed.name?, h]
  | parenthesized _ ih => simp [List.filterMap_cons, ih]
  | @call _ f c _ _ _ _ _ ih =>
    have hf : Placed.name? ⟨.identifier f.name, c⟩ = none := Placed.name?_builtin (.unary f) c
    simp [Phrase.names, List.filterMap_cons, hf, ih]
  | @call₂ _ f c _ _ _ _ _ _ _ _ _ ihx ihy =>
    have hf : Placed.name? ⟨.identifier f.name, c⟩ = none := Placed.name?_builtin (.binary f) c
    simp [Phrase.names, List.filterMap_cons, hf, ihx, ihy]
  | @choice _ c _ _ _ _ _ _ _ _ _ _ _ _ _ ihx ihy ihz =>
    have hf : Placed.name? ⟨.identifier "if", c⟩ = none := Placed.name?_of_reserved (by decide) c
    simp [Phrase.names, List.filterMap_cons, hf, ihx, ihy, ihz]

theorem Segment.names_of_derives {s : Segment} {room : Nat} {k : Rank} {x : Phrase}
    (h : Derives room k s.tokens x) : s.names = x.names :=
  h.names_eq.symm

namespace Names

/-- A table of variables with one more name, unless it is there already. -/
def addVar (vars : List String) (name : String) : List String :=
  if name ∈ vars then vars else vars ++ [name]

/-- Names that are added one after another come behind the others, each at its first use. -/
theorem foldl_addVar (vars uses : List String) :
    uses.foldl addVar vars = vars ++ (uses.filter (· ∉ vars)).eraseDups := by
  induction uses generalizing vars with
  | nil => simp
  | cons name uses ih =>
    rw [List.foldl_cons, ih, addVar]
    by_cases h : name ∈ vars
    · simp [h]
    · have hrest : uses.filter (· ∉ vars ++ [name]) =
          (uses.filter (· ∉ vars)).filter fun n => !n == name := by
        rw [List.filter_filter]
        refine List.filter_congr fun n _ => ?_
        by_cases hn : n = name <;> simp [hn]
      rw [if_neg h, List.filter_cons_of_pos (by simpa using h), List.eraseDups_cons, hrest,
        List.append_assoc, List.singleton_append]

variable {names names' : Names} {name : String} {b : Binding}

/-- A name that no definition has is a variable from now on. -/
theorem vars_eq_of_resolve (h : names.resolve name = (some b, names')) :
    names'.vars = ([name].filter (· ∉ names.refs)).foldl addVar names.vars := by
  rcases resolve_cases h with ⟨i, hi, -, rfl⟩ | ⟨i, -, hi, -, rfl⟩ | ⟨hv, hr, -, -, rfl⟩
  · have hm : name ∈ names'.vars := List.mem_of_getElem? (getElem?_of_idxOf? hi)
    by_cases hr : name ∈ names'.refs <;> simp [hr, addVar, hm]
  · have hm : name ∈ names'.refs := List.mem_of_getElem? (getElem?_of_latest? hi)
    simp [hm]
  · simp [hr, addVar, hv]

end Names

namespace Resolves

variable {names names' : Names} {x : Phrase} {e : Expr}

theorem vars_eq (h : Resolves names x e names') :
    names'.vars = (x.names.filter (· ∉ names.refs)).foldl Names.addVar names.vars := by
  induction h with
  | literal | pi | euler => rfl
  | name h => exact Names.vars_eq_of_resolve h
  | call _ ih | negation _ ih => exact ih
  | call₂ hx _ ihx ihy | binary hx _ ihx ihy =>
    rw [ihy, hx.refs_eq, ihx, Phrase.names, List.filter_append, List.foldl_append]
  | choice hx hy _ ihx ihy ihz =>
    rw [ihz, hy.refs_eq, hx.refs_eq, ihy, hx.refs_eq, ihx, Phrase.names, List.filter_append,
      List.filter_append, List.foldl_append, List.foldl_append]

end Resolves

theorem Script.Reads.vars_eq {names final : Names} {s : Script} {trees : List (Segment × Expr)}
    (h : s.Reads names trees final) :
    final.vars =
      (Script.usesFrom names.refs s.main s.definitions).foldl Names.addVar names.vars := by
  induction h with
  | main hp =>
    obtain ⟨x, hx, hr⟩ := Expr.derives_of_parse hp
    rw [hr.vars_eq, usesFrom, Segment.names_of_derives hx]
  | definition hp _ ih =>
    obtain ⟨x, hx, hr⟩ := Expr.derives_of_parse hp
    rw [ih, usesFrom, Segment.names_of_derives hx, List.foldl_append, ← hr.vars_eq, Names.declare,
      hr.refs_eq]

/-- The variables of a formula are those of its compiler and, behind them, the names of the source
that are no variables of the compiler, each at its first use. -/
theorem Compiler.vars_of_compile {c : Compiler} {source : String} {f : Formula}
    (h : c.compile source = .ok f) : ∃ script, Script.ofSource? source = .ok script ∧
      f.vars = c.vars ++ (script.uses.filter (· ∉ c.vars)).eraseDups := by
  obtain ⟨script, trees, final, hscript, hreads, hvars, -⟩ := reads_of_compile h
  refine ⟨script, hscript, ?_⟩
  rw [hvars, hreads.vars_eq, Names.foldl_addVar]
  rfl

end FormulaMachine
