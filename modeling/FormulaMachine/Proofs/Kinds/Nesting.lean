import FormulaMachine.Proofs.Kinds
import FormulaMachine.Proofs.Parsing

/-!
An expression whose kinds fit and that nests no deeper than the grammar lets it never needs more
pieces than may wait. Each level of nesting adds four at most.
-/
namespace FormulaMachine

/-- How many pieces an expression of a rank and kind may need where nothing nests. -/
def Rank.height : Rank → Kind → Nat
  | .expression, .number | .comparison, .number | .sum, .number => 3
  | .product, .number => 2
  | .unary, .number | .power, .number | .atom, .number => 1
  | .expression, .boolean => 5
  | .comparison, .boolean => 4
  | .sum, .boolean | .product, .boolean | .unary, .boolean | .power, .boolean | .atom, .boolean => 3

namespace Rank

variable {j k : Rank} {op : Operator}

theorem height_parts (h : k.parts? = some j) (kind : Kind) : j.height kind ≤ k.height kind := by
  cases k <;> cases h <;> cases kind <;> decide

theorem height_join (h : k.parts? = some j) (hj : k.joins op) :
    k.height op.operandKind ≤ k.height op.resultKind ∧
      j.height op.operandKind < k.height op.resultKind := by
  cases k <;> cases h <;> cases op <;> cases hj <;> decide

theorem height_compare (h : op.isRelational) :
    sum.height op.operandKind < comparison.height op.resultKind := by
  cases op <;> cases h <;> decide

theorem height_sign (kind : Kind) : power.height kind = unary.height kind := by
  cases kind <;> rfl

theorem height_exponent : atom.height Operator.power.operandKind ≤
      power.height Operator.power.resultKind ∧
    unary.height Operator.power.operandKind < 4 + power.height Operator.power.resultKind := by
  decide

theorem height_pos (k : Rank) (kind : Kind) : 0 < k.height kind := by
  cases k <;> cases kind <;> decide

/-- A choice between two expressions, by a condition of any kind, is an atom of the next level. -/
theorem height_expression (i kind : Kind) :
    expression.height i ≤ 4 + atom.height kind ∧
      expression.height kind + 2 ≤ 4 + atom.height kind := by
  cases i <;> cases kind <;> decide

end Rank

variable {room : Nat} {rank : Rank} {kind : Kind} {ts : List Placed} {x : Phrase} {e : Expr}
  {names names' : Names}

/-- The induction is on the derivation. Kinds and nesting go together in it, since comparisons do
not nest in sums without parentheses. -/
theorem Derives.height_le (h : Derives room rank ts x) (hr : Resolves names x e names')
    (hk : e.HasKind kind) : e.height ≤ 4 * room + rank.height kind := by
  induction h generalizing names names' e kind with
  | lone hj _ ih =>
    have hle := ih hr hk
    have hparts := Rank.height_parts hj kind
    omega
  | join hj ho _ _ ihx ihy =>
    cases hr with
    | binary hra hrb =>
      obtain ⟨ha, hb, rfl⟩ := hk.of_binary
      have hx := ihx hra ha
      have hy := ihy hrb hb
      have hjoin := Rank.height_join hj ho
      simp only [Expr.height]
      omega
  | compare ho _ _ ihx ihy =>
    cases hr with
    | binary hra hrb =>
      obtain ⟨ha, hb, rfl⟩ := hk.of_binary
      have hx := ihx hra ha
      have hy := ihy hrb hb
      have hcompare := Rank.height_compare ho
      simp only [Expr.height]
      omega
  | signed _ _ _ ih => exact Rank.height_sign kind ▸ ih hr hk
  | negated _ _ _ _ ih =>
    cases hr with
    | negation hra =>
      cases hk with
      | negation ha => exact ih hra ha
  | exponent _ _ ihx ihy =>
    cases hr with
    | binary hra hrb =>
      obtain ⟨ha, hb, rfl⟩ := hk.of_binary
      have hx := ihx hra ha
      have hy := ihy hrb hb
      have hexponent := Rank.height_exponent
      simp only [Expr.height]
      omega
  | literal | pi | euler | name =>
    cases hr
    have hpos := Rank.height_pos .atom kind
    simp only [Expr.height]
    omega
  | parenthesized _ ih =>
    have hle := ih hr hk
    have hnext := Rank.height_expression kind kind
    omega
  | call _ ih =>
    cases hr with
    | call hra =>
      cases hk with
      | call ha =>
        have hle := ih hra ha
        have hnext := Rank.height_expression .number .number
        simp only [Expr.height]
        omega
  | call₂ _ _ ihx ihy =>
    cases hr with
    | call₂ hra hrb =>
      cases hk with
      | call₂ ha hb =>
        have hx := ihx hra ha
        have hy := ihy hrb hb
        have hnext := Rank.height_expression .number .number
        simp only [Expr.height]
        omega
  | choice _ _ _ ihx ihy ihz =>
    cases hr with
    | choice hra hrb hrd =>
      cases hk with
      | @choice _ i _ _ _ _ ha hb hd =>
        have hx := ihx hra ha
        have hy := ihy hrb hb
        have hz := ihz hrd hd
        have hnext := Rank.height_expression i kind
        simp only [Expr.height]
        omega

namespace Expr

variable {s : Segment}

theorem HasKind.height_le (h : parse s names = (.ok e, names')) (hk : e.HasKind kind) :
    e.height ≤ maxPending := by
  obtain ⟨x, hx, hr⟩ := derives_of_parse h
  have hle := hx.height_le hr hk
  have htop : 4 * Parser.maxNesting + Rank.expression.height kind ≤ maxPending := by
    cases kind <;> decide
  omega

/-- An expression that has been read has a program just if its kinds fit and it has no more
literals than the ceiling allows. Otherwise, unless pieces of an expression whose kinds do not fit
are too many, the error is the first violation. -/
theorem toProgram?_iff_hasKind (h : parse s names = (.ok e, names')) (ceiling : Nat) :
    ((∃ p, e.toProgram? ceiling = .ok p) ↔ (∃ k, e.HasKind k) ∧ e.literals ≤ ceiling) ∧
    (∀ error, (∃ k, e.HasKind k) → e.toProgram? ceiling = .error error →
      error.kind ≠ .stackOverflow) ∧
    ∀ error, e.toProgram? ceiling = .error error →
      error.kind = .invalidOperand ∨ error.kind = .tooManyConstants →
      e.FirstViolation ceiling error := by
  have hf := finds_toProgram? e ceiling
  refine ⟨⟨?_, ?_⟩, ?_, ?_⟩
  · rintro ⟨p, hp⟩
    rw [hp] at hf
    obtain ⟨hk, hl⟩ := hasKind_of_fault? hf.2
    exact ⟨⟨_, hk⟩, by simpa using hl (Nat.zero_le _)⟩
  · rintro ⟨⟨k, hk⟩, hl⟩
    have hheight := hk.height_le h
    have hnone : e.fault? ceiling 0 = none := hk.fault?_eq_none (by omega)
    cases ht : e.toProgram? ceiling with
    | ok p => exact ⟨p, rfl⟩
    | error error =>
      rw [ht] at hf
      rcases hf with ⟨hover, -⟩ | hfault
      · omega
      · rw [hnone] at hfault
        cases hfault
  · rintro error ⟨k, hk⟩ ht hkind
    have hheight := hk.height_le h
    rw [ht] at hf
    rcases hf with ⟨hover, -⟩ | hfault
    · omega
    · rcases (firstViolation_of_postorder hfault).kind with hi | hc
      · rw [hi] at hkind
        cases hkind
      · rw [hc] at hkind
        cases hkind
  · intro error ht hkind
    rw [ht] at hf
    rcases hf with ⟨-, hover⟩ | hfault
    · rw [hover] at hkind
      rcases hkind with hkind | hkind <;> cases hkind
    · exact firstViolation_of_postorder hfault

/-- The kinds of a choice are those of its sides, and its two literals need a ceiling of two. -/
theorem toProgram?_iff_hasKind_choice : ∃ e names',
    parse ⟨"if(x<1, 2, x)", 0⟩ { vars := ["x"] } = (.ok e, names') ∧
      (∃ p, e.toProgram? 2 = .ok p) ∧ ¬∃ p, e.toProgram? 1 = .ok p := by
  have hfault : (parse ⟨"if(x<1, 2, x)", 0⟩ { vars := ["x"] }).1.toOption.map
      (fun e => (e.fault? 2 0).isNone) = some true := by decide +kernel
  have hliterals : (parse ⟨"if(x<1, 2, x)", 0⟩ { vars := ["x"] }).1.toOption.map literals =
      some 2 := by decide +kernel
  generalize hp : parse ⟨"if(x<1, 2, x)", 0⟩ { vars := ["x"] } = o at hfault hliterals
  obtain ⟨r, names'⟩ := o
  obtain ⟨e, he, htwo⟩ := Option.map_eq_some_iff.mp hliterals
  obtain rfl : r = .ok e := Except.ok_of_toOption he
  obtain ⟨hkind, -⟩ := hasKind_of_fault? (Option.isNone_iff_eq_none.mp (Option.some.inj hfault))
  refine ⟨e, names', rfl, (toProgram?_iff_hasKind hp 2).1.mpr ⟨⟨_, hkind⟩, ?_⟩, fun hone => ?_⟩
  · exact Nat.le_of_eq htwo
  · have hl := ((toProgram?_iff_hasKind hp 1).1.mp hone).2
    omega

end Expr
end FormulaMachine
