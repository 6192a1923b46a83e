import FormulaMachine.Proofs.Discovery
import FormulaMachine.Proofs.Errors
import FormulaMachine.Proofs.Kinds
import FormulaMachine.Proofs.Splitting.Pieces

/-!
The constants of a program are the literals of its segment, and its loads are the operands, in the
order in which they are written. Too many constants are the fault of the first literal beyond the
ceiling.
-/
namespace FormulaMachine

namespace Operand

/-- The instruction that loads an operand. -/
def opcode : Operand → Opcode
  | literal _ => .number
  | pi => .pi
  | euler => .euler
  | var index => .var index
  | ref index => .ref index

@[simp] theorem fragment_code (o : Operand) : o.fragment.code = [o.opcode] := by
  cases o <;> rfl

@[simp] theorem isLoad_opcode (o : Operand) : o.opcode.isLoad := by
  cases o <;> rfl

theorem fragment_constants (o : Operand) :
    o.fragment.constants.map literal = [o].filter isLiteral := by
  cases o <;> rfl

end Operand

namespace Placed

def isLiteral (p : Placed) : Bool :=
  match p.token with
  | .literal _ => true
  | _ => false

/-- Neither a choice nor a function is an operand. -/
def isOperand (p : Placed) : Bool :=
  match p.token with
  | .literal _ => true
  | .identifier name => name ≠ "if" && (Builtin.ofName? name).isNone
  | _ => false

def value? (p : Placed) : Option Float :=
  match p.token with
  | .literal text => Decimal.read? text.toList
  | _ => none

/-- What an operand stands for where names have the meanings of the table. -/
def operand? (names : Names) (p : Placed) : Option Operand :=
  match p.token with
  | .literal _ => p.value?.map .literal
  | .identifier name =>
    if name = "pi" then some .pi
    else if name = "e" then some .euler
    else (names.resolve name).1.map Binding.operand
  | _ => none

/-- The instruction for an operand. -/
def load? (names : Names) (p : Placed) : Option Opcode := (p.operand? names).map Operand.opcode

/-- A token stands for an operand in its column. -/
def Shows (names : Names) (p : Placed) (o : Column × Operand) : Prop :=
  p.column = o.1 ∧ p.operand? names = some o.2

end Placed

namespace Segment

def literals (s : Segment) : List Placed := s.tokens.filter Placed.isLiteral

def operands (s : Segment) : List Placed := s.tokens.filter Placed.isOperand

end Segment

/-- The operands from left to right, with their columns. -/
def Expr.leaves : Expr → List (Column × Operand)
  | operand c o => [(c, o)]
  | call _ _ x | negation _ x => x.leaves
  | call₂ _ _ x y | binary _ _ x y => x.leaves ++ y.leaves
  | choice _ condition yes no => condition.leaves ++ yes.leaves ++ no.leaves

/-! ### From an expression to its code -/

namespace Expr

variable {ceiling pending used : Nat} {e : Expr} {a : Piece} {error : Error} {es : List Expr}

/-- What joins pieces loads nothing. -/
theorem loads_of_piece? (h : e.piece? ceiling pending used = .ok a) :
    a.fragment.code.filter Opcode.isLoad = e.operands.map Operand.opcode := by
  induction e generalizing pending used a with
  | operand c o =>
    obtain rfl := piece?_operand h
    simp [operands]
  | negation c x ih =>
    obtain ⟨b, hb, -, rfl⟩ := piece?_negation h
    simp [Fragment.push, operands, Opcode.isLoad, ih hb]
  | call c f x ih =>
    obtain ⟨b, hb, -, rfl⟩ := piece?_call h
    simp [Fragment.push, operands, Opcode.isLoad, ih hb]
  | binary c op x y ihx ihy =>
    obtain ⟨b, d, hb, hd, -, -, rfl⟩ := piece?_binary h
    simp [Fragment.push, operands, Opcode.isLoad, ihx hb, ihy hd]
  | call₂ c f x y ihx ihy =>
    obtain ⟨b, d, hb, hd, -, -, rfl⟩ := piece?_call₂ h
    simp [Fragment.push, operands, Opcode.isLoad, ihx hb, ihy hd]
  | choice c x y z ihx ihy ihz =>
    obtain ⟨b, d, f, hb, hd, hf, -, rfl⟩ := piece?_choice h
    simp [Fragment.pushChoice_code, operands, Opcode.isLoad, ihx hb, ihy hd, ihz hf]

theorem constants_of_piece? (h : e.piece? ceiling pending used = .ok a) :
    a.fragment.constants.map .literal = e.operands.filter Operand.isLiteral := by
  induction e generalizing pending used a with
  | operand c o =>
    obtain rfl := piece?_operand h
    exact o.fragment_constants
  | negation c x ih =>
    obtain ⟨b, hb, -, rfl⟩ := piece?_negation h
    simp [Fragment.push, operands, ih hb]
  | call c f x ih =>
    obtain ⟨b, hb, -, rfl⟩ := piece?_call h
    simp [Fragment.push, operands, ih hb]
  | binary c op x y ihx ihy =>
    obtain ⟨b, d, hb, hd, -, -, rfl⟩ := piece?_binary h
    simp [Fragment.push, operands, ihx hb, ihy hd]
  | call₂ c f x y ihx ihy =>
    obtain ⟨b, d, hb, hd, -, -, rfl⟩ := piece?_call₂ h
    simp [Fragment.push, operands, ihx hb, ihy hd]
  | choice c x y z ihx ihy ihz =>
    obtain ⟨b, d, f, hb, hd, hf, -, rfl⟩ := piece?_choice h
    simp [Fragment.pushChoice_constants, operands, ihx hb, ihy hd, ihz hf]

theorem map_leaves (e : Expr) : e.leaves.map (·.2) = e.operands := by
  induction e with
  | operand c o => rfl
  | call c f x ih | negation c x ih => exact ih
  | call₂ c f x y ihx ihy | binary c op x y ihx ihy => simp [leaves, operands, ihx, ihy]
  | choice c x y z ihx ihy ihz => simp [leaves, operands, ihx, ihy, ihz]

/-- The literals among the parts are those among the operands. -/
theorem columns_of_literals (e : Expr) : (e.postorder.filter isLiteral).map column =
    (e.leaves.filter (·.2.isLiteral)).map (·.1) := by
  induction e with
  | operand c o => cases o <;> rfl
  | call c f x ih | negation c x ih => simp [postorder, leaves, isLiteral, ih]
  | call₂ c f x y ihx ihy | binary c op x y ihx ihy =>
    simp [postorder, leaves, isLiteral, ihx, ihy]
  | choice c x y z ihx ihy ihz => simp [postorder, leaves, isLiteral, ihx, ihy, ihz]

theorem violation?_tooManyConstants (h : e.violation? ceiling used = some error)
    (hk : error.kind = .tooManyConstants) :
    e.isLiteral ∧ ceiling ≤ used ∧ e.column = error.column := by
  have hmisfit {x : Expr} {k : Kind} (h : x.misfit? k = some error) : False := by
    rw [misfit?_kind h] at hk
    cases hk
  cases e with
  | operand c o =>
    rw [violation?] at h
    split at h <;> cases h
    next ho => exact ⟨ho.1, ho.2, rfl⟩
  | call | negation => exact (hmisfit h).elim
  | call₂ | binary =>
    rw [violation?, Option.or_eq_some_iff] at h
    rcases h with h | ⟨-, h⟩
    · exact (hmisfit h).elim
    · exact (hmisfit h).elim
  | choice =>
    rw [violation?] at h
    split at h <;> cases h
    cases hk

/-- By induction on the parts: while none is at fault the literals have not passed the ceiling. -/
theorem literal_of_firstViolation? (h : firstViolation? ceiling used es = some error)
    (hk : error.kind = .tooManyConstants) (hu : used ≤ ceiling) :
    ((es.filter isLiteral).map column)[ceiling - used]? = some error.column := by
  induction es generalizing used with
  | nil => cases h
  | cons e es ih =>
    rw [firstViolation?, Option.or_eq_some_iff] at h
    rcases h with h | ⟨hnone, h⟩
    · obtain ⟨hl, hc, hcolumn⟩ := violation?_tooManyConstants h hk
      obtain rfl := Nat.le_antisymm hu hc
      simp [hl, hcolumn]
    · cases hl : e.isLiteral with
      | false =>
        rw [hl] at h
        rw [List.filter_cons_of_neg (by simp [hl])]
        exact ih h hu
      | true =>
        rw [hl] at h
        have hlt : used < ceiling := by
          cases e with
          | operand c o =>
            have ho : o.isLiteral = true := hl
            rw [violation?] at hnone
            split at hnone
            · cases hnone
            · next hn => exact Nat.lt_of_not_le fun hc => hn ⟨ho, hc⟩
          | _ => cases hl
        have hi : ceiling - used = ceiling - (used + 1) + 1 := by omega
        rw [List.filter_cons_of_pos hl, List.map_cons, hi, List.getElem?_cons_succ]
        exact ih h hlt

end Expr

/-! ### From the tokens to the expression -/

namespace Placed

variable {names : Names} {p : Placed} {o : Column × Operand} {xs ys : List Placed}
  {os us : List (Column × Operand)}

theorem isOperand_of_isSign (h : p.isSign) : p.isOperand = false := by
  obtain ⟨token, column⟩ := p
  cases token with
  | operator op => rfl
  | unknown | blank | literal | identifier | leftParen | rightParen | comma => cases h

@[simp] theorem isOperand_leftParen (c : Column) : isOperand ⟨.leftParen, c⟩ = false := rfl

@[simp] theorem isOperand_rightParen (c : Column) : isOperand ⟨.rightParen, c⟩ = false := rfl

@[simp] theorem isOperand_comma (c : Column) : isOperand ⟨.comma, c⟩ = false := rfl

theorem isOperand_builtin (f : Builtin) (c : Column) :
    isOperand ⟨.identifier f.name, c⟩ = false := by
  simp [isOperand, Builtin.ofName?_name]

theorem isOperand_of_isLiteral (h : p.isLiteral) : p.isOperand := by
  obtain ⟨token, column⟩ := p
  cases token with
  | literal text => rfl
  | unknown | blank | operator | identifier | leftParen | rightParen | comma => cases h

/-- Names never stand for literals. -/
theorem Shows.isLiteral_iff (h : p.Shows names o) : p.isLiteral ↔ o.2.isLiteral := by
  obtain ⟨token, column⟩ := p
  obtain ⟨column', operand⟩ := o
  obtain ⟨-, ho⟩ := h
  cases token with
  | literal text =>
    obtain ⟨value, -, rfl⟩ := Option.map_eq_some_iff.mp ho
    exact Iff.rfl
  | identifier name =>
    simp only [operand?] at ho
    split at ho
    · cases ho
      exact Iff.rfl
    · split at ho
      · cases ho
        exact Iff.rfl
      · obtain ⟨b, -, rfl⟩ := Option.map_eq_some_iff.mp ho
        cases b <;> exact Iff.rfl
  | unknown | blank | operator | leftParen | rightParen | comma => cases ho

theorem value?_of_operand? {x : Float} (h : p.operand? names = some (.literal x)) :
    p.value? = some x := by
  obtain ⟨token, column⟩ := p
  have hl : Placed.isLiteral ⟨token, column⟩ :=
    (Shows.isLiteral_iff (o := (column, .literal x)) ⟨rfl, h⟩).mpr rfl
  cases token with
  | literal text =>
    obtain ⟨value, hv, heq⟩ := Option.map_eq_some_iff.mp h
    cases heq
    exact hv
  | unknown | blank | operator | identifier | leftParen | rightParen | comma => cases hl

theorem operands_join (hx : List.Forall₂ (Shows names) (xs.filter isOperand) os)
    (hy : List.Forall₂ (Shows names) (ys.filter isOperand) us) (hp : p.isOperand = false) :
    List.Forall₂ (Shows names) ((xs ++ p :: ys).filter isOperand) (os ++ us) := by
  rw [List.filter_append, List.filter_cons_of_neg (by simp [hp])]
  exact List.rel_append hx hy

theorem operands_signs {run : List Placed} (h : ∀ p ∈ run, p.isSign) :
    (run ++ xs).filter isOperand = xs.filter isOperand := by
  have hrun : run.filter isOperand = [] :=
    List.filter_eq_nil_iff.mpr fun p hp => by simp [isOperand_of_isSign (h p hp)]
  rw [List.filter_append, hrun, List.nil_append]

/-- A name is looked up in all variables that there are in the end, and in the definitions made so
far. -/
theorem shows_of_resolve {names' final : Names} {name : String} {c : Column} {b : Binding}
    (h : names.resolve name = (some b, names')) (hf : names'.Grows final) (hn : name ∉ reserved) :
    Shows { vars := final.vars, refs := names.refs } ⟨.identifier name, c⟩ (c, b.operand) := by
  obtain ⟨hpi, he, -, -⟩ := Parser.not_mem_reserved.mp hn
  have hb := (Names.recast_listed final).resolve h hf
  refine ⟨rfl, ?_⟩
  simp only [operand?, if_neg hpi, if_neg he, hb]
  rfl

end Placed

/-- The operands of an expression are those of its tokens. -/
theorem Derives.operands {room : Nat} {k : Rank} {xs : List Placed} {x : Phrase} {e : Expr}
    {names names' final : Names} {refs : List String} (h : Derives room k xs x)
    (hr : Resolves names x e names') (hf : names'.Grows final) (hn : names.refs = refs) :
    List.Forall₂ (Placed.Shows { vars := final.vars, refs }) (xs.filter Placed.isOperand)
      e.leaves := by
  -- Each part is read with another table, but with the same references, and all grow to `final`.
  induction h generalizing names names' e with
  | lone _ _ ih => exact ih hr hf hn
  | join _ _ _ _ ihx ihy | compare _ _ _ ihx ihy | exponent _ _ ihx ihy =>
    cases hr with
    | binary hx hy =>
      have hleft := ihx hx (hy.grows.trans hf) hn
      have hright := ihy hy hf (hx.refs_eq.trans hn)
      exact Placed.operands_join hleft hright rfl
  | signed hrun _ _ ih =>
    rw [Placed.operands_signs hrun]
    exact ih hr hf hn
  | negated hrun _ _ _ ih =>
    cases hr with
    | negation hr =>
      have hx := ih hr hf hn
      rwa [Placed.operands_signs hrun]
  | literal hread =>
    cases hr
    exact .cons ⟨rfl, by simp [Placed.operand?, Placed.value?, hread]⟩ .nil
  | pi | euler =>
    cases hr
    exact .cons ⟨rfl, rfl⟩ .nil
  | @name _ name c hname =>
    cases hr with
    | name hb =>
      have hs := Placed.shows_of_resolve (c := c) hb hf hname
      obtain ⟨-, -, hif, hbuiltin⟩ := Parser.not_mem_reserved.mp hname
      have hp : Placed.isOperand ⟨.identifier name, c⟩ := by simp [Placed.isOperand, hif, hbuiltin]
      rw [List.filter_cons_of_pos hp]
      exact .cons (hn ▸ hs) .nil
  | parenthesized _ ih => simpa using ih hr hf hn
  | @call _ f c _ _ _ _ _ ih =>
    have hp : Placed.isOperand ⟨.identifier f.name, c⟩ = false :=
      Placed.isOperand_builtin (.unary f) c
    cases hr with
    | call hr => simpa [Expr.leaves, hp] using ih hr hf hn
  | @call₂ _ f c _ _ _ _ _ _ _ _ _ ihx ihy =>
    have hp : Placed.isOperand ⟨.identifier f.name, c⟩ = false :=
      Placed.isOperand_builtin (.binary f) c
    cases hr with
    | call₂ hx hy =>
      have hxy := List.rel_append (ihx hx (hy.grows.trans hf) hn) (ihy hy hf (hx.refs_eq.trans hn))
      simpa [Expr.leaves, hp] using hxy
  | @choice _ c _ _ _ _ _ _ _ _ _ _ _ _ _ ihx ihy ihz =>
    have hp : Placed.isOperand ⟨.identifier "if", c⟩ = false := rfl
    cases hr with
    | choice hx hy hz =>
      have hxy := List.rel_append (ihx hx ((hy.grows.trans hz.grows).trans hf) hn)
        (ihy hy (hz.grows.trans hf) (hx.refs_eq.trans hn))
      have hxyz := List.rel_append hxy (ihz hz hf (hy.refs_eq.trans (hx.refs_eq.trans hn)))
      simpa [Expr.leaves, hp] using hxyz

/-! ### Whole sources -/

namespace Segment

variable {s : Segment} {names names' final : Names} {e : Expr} {ceiling : Nat} {p : Program}

theorem shows_operands (h : Expr.parse s names = (.ok e, names')) (hf : names'.Grows final) :
    List.Forall₂ (Placed.Shows { vars := final.vars, refs := names.refs }) s.operands e.leaves := by
  obtain ⟨x, hx, hr⟩ := Expr.derives_of_parse h
  exact hx.operands hr hf rfl

theorem shows_literals (h : Expr.parse s names = (.ok e, names')) (hf : names'.Grows final) :
    List.Forall₂ (Placed.Shows { vars := final.vars, refs := names.refs }) s.literals
      (e.leaves.filter (·.2.isLiteral)) := by
  have hl : s.literals = s.operands.filter Placed.isLiteral := by
    rw [operands, List.filter_filter]
    refine List.filter_congr fun p _ => ?_
    cases hp : p.isLiteral with
    | false => rfl
    | true => simp [Placed.isOperand_of_isLiteral hp]
  rw [hl]
  exact List.rel_filter (fun _ _ h => h.isLiteral_iff) (shows_operands h hf)

theorem columns_literals (h : Expr.parse s names = (.ok e, names')) :
    s.literals.map (·.column) = (e.postorder.filter Expr.isLiteral).map Expr.column := by
  rw [Expr.columns_of_literals, ← List.forall₂_eq_eq_eq, List.forall₂_map_left_iff,
    List.forall₂_map_right_iff]
  exact (shows_literals h (.refl _)).imp fun _ _ h => h.1

theorem length_literals (h : Expr.parse s names = (.ok e, names')) :
    s.literals.length = e.literals := by
  have hl := congrArg List.length (columns_literals h)
  rwa [List.length_map, List.length_map, ← List.countP_eq_length_filter] at hl

/-- The constants are the literals. -/
theorem values_of_toProgram? (h : Expr.parse s names = (.ok e, names'))
    (hp : e.toProgram? ceiling = .ok p) :
    List.Forall₂ (fun t x => t.value? = some x) s.literals p.constants := by
  obtain ⟨a, ha, rfl⟩ := Expr.piece?_of_toProgram? hp
  have hs : List.Forall₂
      (fun t o => t.operand? { vars := names'.vars, refs := names.refs } = some o)
      s.literals (a.fragment.constants.map .literal) := by
    rw [Expr.constants_of_piece? ha, ← Expr.map_leaves, List.filter_map, List.forall₂_map_right_iff]
    exact (shows_literals h (.refl _)).imp fun _ _ h => h.2
  exact (List.forall₂_map_right_iff.mp hs).imp fun _ _ => Placed.value?_of_operand?

/-- The loads are the operands. -/
theorem loads_of_toProgram? (h : Expr.parse s names = (.ok e, names')) (hf : names'.Grows final)
    (hp : e.toProgram? ceiling = .ok p) :
    List.Forall₂ (fun t op => t.load? { vars := final.vars, refs := names.refs } = some op)
      s.operands (p.code.filter Opcode.isLoad) := by
  obtain ⟨a, ha, rfl⟩ := Expr.piece?_of_toProgram? hp
  rw [Expr.loads_of_piece? ha, ← Expr.map_leaves, List.map_map, List.forall₂_map_right_iff]
  exact (shows_operands h hf).imp fun t o h => by rw [Placed.load?, h.2]; rfl

end Segment

/-- The column of the first literal too many, in the first segment that has one. -/
def FirstExcess (ceiling : Nat) (segments : List Segment) (c : Column) : Prop :=
  ∃ before s after, segments = before ++ s :: after ∧
    (∀ t ∈ before, t.literals.length ≤ ceiling) ∧
    (s.literals.map (·.column))[ceiling]? = some c

theorem FirstExcess.append {ceiling : Nat} {ss : List Segment} {c : Column}
    (h : FirstExcess ceiling ss c) (ts : List Segment) : FirstExcess ceiling (ss ++ ts) c := by
  obtain ⟨before, s, after, rfl, hb, hs⟩ := h
  exact ⟨before, s, after ++ ts, by simp, hb, hs⟩

theorem FirstExcess.cons {ceiling : Nat} {s : Segment} {ss : List Segment} {c : Column}
    (h : FirstExcess ceiling ss c) (hs : s.literals.length ≤ ceiling) :
    FirstExcess ceiling (s :: ss) c := by
  obtain ⟨before, t, after, rfl, hb, ht⟩ := h
  exact ⟨s :: before, t, after, rfl, List.forall_mem_cons.mpr ⟨hs, hb⟩, ht⟩

namespace Compiler

variable {c : Compiler} {s : Segment} {ds : List Definition} {names names' : Names} {error : Error}
  {p : Program} {references : List (String × Program)}

theorem literals_of_segment (h : c.segment s names = .ok (p, names')) :
    s.literals.length ≤ c.ceiling := by
  obtain ⟨e, hparse, hp⟩ := segment_ok h
  rw [Segment.length_literals hparse]
  exact (Expr.hasKind_of_toProgram? hp).2

theorem literals_of_definitions (h : c.definitions names ds = .ok (references, names')) :
    ∀ d ∈ ds, d.toSegment.literals.length ≤ c.ceiling := by
  induction ds generalizing names references with
  | nil => exact List.forall_mem_nil _
  | cons d ds ih =>
    obtain ⟨⟨p, names₁⟩, hp, h⟩ := Except.ok_of_bind h
    obtain ⟨⟨ps, names₂⟩, hps, h⟩ := Except.ok_of_bind h
    cases h
    exact List.forall_mem_cons.mpr ⟨literals_of_segment hp, ih hps⟩

section
variable (hk : error.kind = .tooManyConstants)
include hk

theorem column_of_segment (h : c.segment s names = .error error) :
    (s.literals.map (·.column))[c.ceiling]? = some error.column := by
  simp only [segment] at h
  split at h
  · next hparse =>
    cases h
    exact absurd hk (Expr.errors_of_parse hparse).2
  · next e names' hparse =>
    have hf := Expr.finds_toProgram? e c.ceiling
    rcases Except.error_of_bind h with hp | ⟨p, -, h⟩
    · rw [hp] at hf
      rcases hf with ⟨-, hover⟩ | hfault
      · rw [hover] at hk
        cases hk
      · rw [Segment.columns_literals hparse]
        exact Expr.literal_of_firstViolation? hfault hk (Nat.zero_le _)
    · cases h

theorem firstExcess_of_definitions (h : c.definitions names ds = .error error) :
    FirstExcess c.ceiling (ds.map (·.toSegment)) error.column := by
  induction ds generalizing names with
  | nil => cases h
  | cons d ds ih =>
    rcases Except.error_of_bind h with hp | ⟨⟨p, names₁⟩, hp, h⟩
    · exact ⟨[], d.toSegment, _, rfl, List.forall_mem_nil _, column_of_segment hk hp⟩
    · rcases Except.error_of_bind h with hps | ⟨_, -, h⟩
      · exact (ih hps).cons (literals_of_segment hp)
      · cases h

theorem firstExcess_of_script {source : String} (h : c.script source = .error error) :
    ∃ script, Script.ofSource? source = .ok script ∧
      FirstExcess c.ceiling script.segments error.column := by
  rcases Except.error_of_bind h with hs | ⟨script, hs, h⟩
  · obtain ⟨before, piece, after, offset, -, -, -, -, hmisfit, -⟩ :=
      Script.firstMisfit_of_ofSource? hs
    cases hmisfit <;> cases hk
  · refine ⟨script, hs, ?_⟩
    rcases Except.error_of_bind h with hd | ⟨⟨references, names⟩, hd, h⟩
    · exact (firstExcess_of_definitions hk hd).append _
    · rcases Except.error_of_bind h with hm | ⟨_, -, h⟩
      · refine ⟨_, script.main, [], rfl, fun t ht => ?_, column_of_segment hk hm⟩
        obtain ⟨d, hmem, rfl⟩ := List.mem_map.mp ht
        exact literals_of_definitions hd d hmem
      · cases h

theorem firstExcess_of_compile {source : String} (h : c.compile source = .error error) :
    ∃ script, Script.ofSource? source = .ok script ∧
      FirstExcess c.ceiling script.segments error.column := by
  rw [compile_eq] at h
  cases hs : c.script source with
  | ok f =>
    rw [hs] at h
    cases h
  | error e =>
    rw [hs] at h
    cases h
    have hk : e.kind = .tooManyConstants := hk
    exact firstExcess_of_script hk hs

end

/-- The constants of a program are the values of the literals of its segment, and what it loads, at
one address after another, are the operands. If there are too many constants, it is the first
literal beyond the ceiling that is blamed. -/
theorem constants_exact (c : Compiler) (source : String) :
    (∀ f, c.compile source = .ok f → ∃ script, Script.ofSource? source = .ok script ∧
      script.segments.length = f.programs.length ∧
      ∀ (i : Nat) (s : Segment) (p : Program), script.segments[i]? = some s →
        f.programs[i]? = some p →
        List.Forall₂ (fun t x => t.value? = some x) s.literals p.constants ∧
        List.Forall₂ (fun t op =>
            t.load? { vars := f.vars, refs := (f.references.take i).map (·.1) } = some op)
          s.operands (p.code.filter Opcode.isLoad) ∧
        p.constants.length ≤ c.ceiling) ∧
    ∀ e, c.compile source = .error e → e.kind = .tooManyConstants →
      ∃ script, Script.ofSource? source = .ok script ∧
        FirstExcess c.ceiling script.segments e.column := by
  refine ⟨fun f hf => ?_, fun e he hk => firstExcess_of_compile hk he⟩
  obtain ⟨script, hscript, hl, hsegments⟩ := segments_of_compile hf
  refine ⟨script, hscript, hl, fun i s p hs hp => ?_⟩
  obtain ⟨e, before, after, hparse, hrefs, hg, hprogram⟩ := hsegments i s p hs hp
  have hvalues := Segment.values_of_toProgram? hparse hprogram
  have hloads := Segment.loads_of_toProgram? hparse hg hprogram
  rw [hrefs] at hloads
  refine ⟨hvalues, hloads, ?_⟩
  rw [← hvalues.length_eq, Segment.length_literals hparse]
  exact (Expr.hasKind_of_toProgram? hprogram).2

/-- The definition has as many literals as it may have, and `50` is the third of the main
segment. -/
theorem constants_exact_excess : ∃ e, compile { vars := ["x"], ceiling := 2 }
      "a: 1 - 2; if(x, a, 3) + 4 * 50" = .error e ∧ e.column = ⟨28, 30⟩ ∧
    ∃ script, Script.ofSource? "a: 1 - 2; if(x, a, 3) + 4 * 50" = .ok script ∧
      FirstExcess 2 script.segments e.column := by
  have h : Except.error?
      (compile { vars := ["x"], ceiling := 2 } "a: 1 - 2; if(x, a, 3) + 4 * 50") =
      some { kind := .tooManyConstants, column := ⟨28, 30⟩,
             source := "a: 1 - 2; if(x, a, 3) + 4 * 50" } := by
    decide +kernel
  have he := Except.error_of_error? h
  exact ⟨_, he, rfl, (constants_exact _ _).2 _ he rfl⟩

end Compiler
end FormulaMachine
