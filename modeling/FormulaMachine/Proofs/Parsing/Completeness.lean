import FormulaMachine.Proofs.Parsing.Steps

/-!
Whatever the grammar derives is accepted. A part is read the same way in front of anything that it
does not have to take along, so the tokens that follow are part of the induction.
-/
namespace FormulaMachine

/-- The number of the rank that an operator belongs to. -/
def Operator.tightness (op : Operator) : Nat :=
  if op.isLogical then 0
  else if op.isRelational then 1
  else if op.isAdditive then 2
  else if op.isMultiplicative then 3
  else 4

/-- A reader of this rank takes along operators that are as tight as this. Those that join parts of
its own rank are left to its chain. -/
def Rank.tightness : Rank → Nat
  | expression | comparison => 1
  | sum => 3
  | product | unary | power => 4
  | atom => 5

namespace Parser

/-- The tokens do not begin with an operator that a reader of the rank takes along. -/
def Clear (k : Rank) (ts : List Placed) : Prop :=
  ∀ op c us, ts = ⟨.operator op, c⟩ :: us → op.tightness < k.tightness

variable {room : Nat} {inner : Option Levels} {k j : Rank} {e : Expr} {ts xs : List Placed}
  {names : Names} {stop : Nat} {x : Phrase} {op : Operator} {c : Column} {s : Reading}

/-- What is left of a reader after its first part. -/
def more (inner : Option Levels) : Rank → Expr → Parser Expr
  | .expression => chain Operator.isLogical (comparison inner)
  | .sum => chain Operator.isAdditive (ranked inner .product)
  | .product => chain Operator.isMultiplicative (unary inner)
  | _ => pure

theorem more_eq_chain (hk : k.parts? = some j) (ho : k.joins op) :
    more inner k e = chain k.joins (ranked inner j) e := by
  cases k <;> cases hk <;> first | rfl | cases ho

theorem run_more_none (h : upcoming k.joins ts = none) :
    (more inner k e).run ⟨ts, names, stop⟩ = (.ok e, ⟨ts, names, stop⟩) := by
  cases k <;> first | exact run_chain_none h | rfl

/-- What follows a part is no operator that is to be taken along. -/
theorem Clear.upcoming {sort : Operator → Bool} (h : Clear k ts)
    (hs : ∀ op, sort op → k.tightness ≤ op.tightness) : upcoming sort ts = none := by
  cases hu : Parser.upcoming sort ts with
  | none => rfl
  | some op =>
    obtain ⟨ho, c, us, rfl⟩ := eq_cons_of_upcoming hu
    exact absurd (hs op ho) (Nat.not_le.mpr (h op c us rfl))

theorem upcoming_operator {sort : Operator → Bool} (h : sort op = false) :
    upcoming sort (⟨.operator op, c⟩ :: ts) = none := by
  simp [Parser.upcoming, Placed.operator?, h]

theorem clear_operator (h : op.tightness < k.tightness) : Clear k (⟨.operator op, c⟩ :: ts) := by
  rintro op' c' us h'
  cases h'
  exact h

theorem Clear.part (hk : k.parts? = some j) (h : Clear k ts) :
    Clear j ts ∧ Parser.upcoming j.joins ts = none := by
  constructor
  · intro op c us ht
    have := h op c us ht
    cases k <;> cases hk <;> simp only [Rank.tightness] at this ⊢ <;> omega
  · apply h.upcoming
    intro op
    cases k <;> cases hk <;> cases op <;> decide

theorem tightness_lt_of_joins (h : k.joins op) : op.tightness < k.tightness := by
  revert h
  cases k <;> cases op <;> decide

theorem tightness_of_isRelational (h : op.isRelational) : op.tightness = 1 := by
  revert h
  cases op <;> decide

theorem not_isAdditive_of_isRelational (h : op.isRelational) : op.isAdditive = false := by
  revert h
  cases op <;> decide

theorem clear_relational (h : op.isRelational) : Clear .sum (⟨.operator op, c⟩ :: ts) := by
  refine clear_operator ?_
  rw [tightness_of_isRelational h]
  decide

/-- Neither a second comparison follows a comparison nor another summand. -/
theorem Clear.comparison (h : Clear .comparison ts) :
    Parser.upcoming Operator.isRelational ts = none ∧
      Parser.upcoming Operator.isAdditive ts = none := by
  constructor
  · apply h.upcoming
    intro op
    cases op <;> decide
  · apply h.upcoming
    intro op
    cases op <;> decide

/-- An atom, and so a power, begins with a token that is no sign. -/
theorem atom_cons (h : Derives room .atom xs x) : ∃ p ps, xs = p :: ps ∧ p.isSign = false := by
  cases h with
  | lone hk _ | join hk _ _ _ => cases hk
  | literal | pi | euler | name => exact ⟨_, _, rfl, rfl⟩
  | parenthesized | call | call₂ | choice => exact ⟨_, _, rfl, rfl⟩

theorem power_cons (h : Derives room .power xs x) : ∃ p ps, xs = p :: ps ∧ p.isSign = false := by
  cases h with
  | lone hk h => cases hk; exact atom_cons h
  | join hk ho _ _ => cases ho
  | exponent h _ =>
    obtain ⟨p, ps, rfl, hp⟩ := atom_cons h
    exact ⟨p, _, rfl, hp⟩

theorem identifier_builtin (f : Builtin) :
    identifier inner c f.name = nested inner c (call c f) := by
  have hpi : f.name ≠ "pi" := by obtain f | f := f <;> cases f <;> decide
  have he : f.name ≠ "e" := by obtain f | f := f <;> cases f <;> decide
  have hif : f.name ≠ "if" := by obtain f | f := f <;> cases f <;> decide
  simp [identifier, hpi, he, hif, Builtin.ofName?_name]

theorem run_identifier {name : String} {names' : Names} {b : Binding} (h : name ∉ reserved)
    (hr : names.resolve name = (some b, names')) :
    (identifier inner c name).run ⟨ts, names, stop⟩ =
      (.ok (.operand c b.operand), ⟨ts, names', stop⟩) := by
  obtain ⟨hpi, he, hif, hf⟩ := not_mem_reserved.mp h
  simp only [identifier, hpi, he, hif, if_false, hf]
  rw [run_bind_ok (run_resolve name _), hr]
  cases b <;> rfl

section
variable {a b d : Expr} {r : Reading} {us vs ws run : List Placed} {p : Placed}
  {names₁ names₂ names₃ : Names} {q₁ q₂ q₃ q₄ : Column}

theorem run_comparison_some (ho : op.isRelational)
    (ha : (sum inner).run s = (.ok a, ⟨⟨.operator op, c⟩ :: us, names₁, stop⟩))
    (hb : (sum inner).run ⟨us, names₁, stop⟩ = (.ok b, r))
    (hn : upcoming Operator.isRelational r.tokens = none) :
    (comparison inner).run s = (.ok (.binary c op a b), r) := by
  rw [comparison, run_bind_ok ha]
  simp only [run_bind_ok (run_operator?_some _ ho)]
  rw [run_bind_ok hb, run_bind_ok (run_operator?_none hn)]
  rfl

theorem run_power_some (ha : (atom (below (room + 1))).run s =
      (.ok a, ⟨⟨.operator .power, c⟩ :: us, names₁, stop⟩))
    (hb : (unary (below room)).run ⟨us, names₁, stop⟩ = (.ok b, r)) :
    (power (below (room + 1))).run s = (.ok (.binary c .power a b), r) := by
  have ho : (operator? (· == .power)).run ⟨⟨.operator .power, c⟩ :: us, names₁, stop⟩ =
    (.ok (some (.power, c)), ⟨us, names₁, stop⟩) := run_operator?_some _ rfl
  rw [← levels_unary] at hb
  rw [power, run_bind_ok ha, run_bind_ok ho]
  exact run_bind_ok hb

theorem takeWhile_signs (h : ∀ p ∈ run, p.isSign) (hp : p.isSign = false) (ts : List Placed) :
    (run ++ p :: ts).takeWhile Placed.isSign = run ∧
      (run ++ p :: ts).dropWhile Placed.isSign = p :: ts := by
  rw [List.takeWhile_append_of_pos h, List.dropWhile_append_of_pos h,
    List.takeWhile_cons_of_neg (by simp [hp]), List.dropWhile_cons_of_neg (by simp [hp])]
  simp

/-- A run of signs is taken whole, and what it comes to is left for after the power. -/
theorem run_unary (h : ∀ p ∈ run, p.isSign) (hx : Derives room .power xs x)
    (hp : (power inner).run ⟨xs ++ ts, names, stop⟩ = (.ok a, r)) :
    (unary inner).run ⟨run ++ xs ++ ts, names, stop⟩ =
      (.ok (match Placed.negation? run with
        | some column => .negation column a
        | none => a), r) := by
  obtain ⟨p, ps, rfl, hs⟩ := power_cons hx
  obtain ⟨ht, hd⟩ := takeWhile_signs h hs (ps ++ ts)
  rw [unary, run_bind_ok (run_signs _), List.append_assoc, List.cons_append, ht, hd,
    ← List.cons_append, run_bind_ok hp]
  split <;> simp_all

/-- An expression ends in front of a token that is no operator. -/
theorem run_inside (h : ∀ {ts}, Clear .expression ts →
      (ranked (below room) .expression).run ⟨xs ++ ts, names, stop⟩ =
        (more (below room) .expression e).run ⟨ts, names₁, stop⟩)
    (hp : p.operator? = none) :
    (levels room).expression.run ⟨xs ++ p :: us, names, stop⟩ =
      (.ok e, ⟨p :: us, names₁, stop⟩) := by
  have hc : Clear .expression (p :: us) := by
    rintro op c us ⟨⟩
    cases hp
  rw [levels_expression]
  exact (h hc).trans (run_more_none (by simp [upcoming, hp]))

theorem run_parenthesized
    (hx : (levels room).expression.run s = (.ok a, ⟨⟨.rightParen, c⟩ :: us, names₁, stop⟩)) :
    (parenthesized (levels room)).run s = (.ok a, ⟨us, names₁, stop⟩) :=
  (run_bind_ok hx).trans (run_bind_ok (run_closeParen ..))

theorem run_call {f : UnaryFunction}
    (hx : (levels room).expression.run ⟨us, names, stop⟩ =
      (.ok a, ⟨⟨.rightParen, q₂⟩ :: vs, names₁, stop⟩)) :
    (call c (.unary f) (levels room)).run ⟨⟨.leftParen, q₁⟩ :: us, names, stop⟩ =
      (.ok (.call c f a), ⟨vs, names₁, stop⟩) := by
  rw [call, run_bind_ok (run_openParen ..), run_bind_ok hx]
  exact run_bind_ok (run_closeParen ..)

theorem run_call₂ {f : BinaryFunction}
    (hx : (levels room).expression.run ⟨us, names, stop⟩ =
      (.ok a, ⟨⟨.comma, q₂⟩ :: vs, names₁, stop⟩))
    (hy : (levels room).expression.run ⟨vs, names₁, stop⟩ =
      (.ok b, ⟨⟨.rightParen, q₃⟩ :: ws, names₂, stop⟩)) :
    (call c (.binary f) (levels room)).run ⟨⟨.leftParen, q₁⟩ :: us, names, stop⟩ =
      (.ok (.call₂ c f a b), ⟨ws, names₂, stop⟩) := by
  rw [call, run_bind_ok (run_openParen ..), run_bind_ok hx]
  simp only [run_bind_ok (run_comma ..)]
  rw [run_bind_ok hy]
  exact run_bind_ok (run_closeParen ..)

theorem run_choice
    (hx : (levels room).expression.run ⟨us, names, stop⟩ =
      (.ok a, ⟨⟨.comma, q₂⟩ :: vs, names₁, stop⟩))
    (hy : (levels room).expression.run ⟨vs, names₁, stop⟩ =
      (.ok b, ⟨⟨.comma, q₃⟩ :: ws, names₂, stop⟩))
    (hz : (levels room).expression.run ⟨ws, names₂, stop⟩ =
      (.ok d, ⟨⟨.rightParen, q₄⟩ :: ts, names₃, stop⟩)) :
    (choice c (levels room)).run ⟨⟨.leftParen, q₁⟩ :: us, names, stop⟩ =
      (.ok (.choice c a b d), ⟨ts, names₃, stop⟩) := by
  rw [choice, run_bind_ok (run_openParen ..), run_bind_ok hx, run_bind_ok (run_comma ..),
    run_bind_ok hy, run_bind_ok (run_comma ..), run_bind_ok hz]
  exact run_bind_ok (run_closeParen ..)

end

theorem run_atom_literal {text : String} {value : Float}
    (h : Decimal.read? text.toList = some value) :
    (atom inner).run ⟨⟨.literal text, c⟩ :: ts, names, stop⟩ =
      (.ok (.operand c (.literal value)), ⟨ts, names, stop⟩) := by
  rw [atom, run_bind_ok (run_next_cons ..)]
  simp only [h, run_pure]

theorem run_atom_identifier {name : String} :
    (atom inner).run ⟨⟨.identifier name, c⟩ :: ts, names, stop⟩ =
      (identifier inner c name).run ⟨ts, names, stop⟩ := rfl

theorem run_atom_builtin (f : Builtin) :
    (atom (below (room + 1))).run ⟨⟨.identifier f.name, c⟩ :: ts, names, stop⟩ =
      (call c f (levels room)).run ⟨ts, names, stop⟩ := by
  rw [run_atom_identifier, identifier_builtin]
  rfl

theorem run_atom_choice :
    (atom (below (room + 1))).run ⟨⟨.identifier "if", c⟩ :: ts, names, stop⟩ =
      (choice c (levels room)).run ⟨ts, names, stop⟩ := rfl

theorem negation?_even {run : List Placed} (h : run.countP Placed.isMinus % 2 = 0) :
    Placed.negation? run = none := by
  rw [negation?_eq, if_neg (by omega)]

theorem negation?_odd {run : List Placed} {minus : Placed}
    (h : run.countP Placed.isMinus % 2 = 1) (hm : run.find? Placed.isMinus = some minus) :
    Placed.negation? run = some minus.column := by
  rw [negation?_eq, if_pos h, hm]
  rfl

/-- A reader reads what its rank derives as its first part, and goes on from there. -/
theorem run_of_derives {names' : Names} (h : Derives room k xs x)
    (hr : Resolves names x e names') (hts : Clear k ts) :
    (ranked (below room) k).run ⟨xs ++ ts, names, stop⟩ =
      (more (below room) k e).run ⟨ts, names', stop⟩ := by
  induction h generalizing names e names' ts with
  | @lone room k j xs x hk h ih =>
    obtain ⟨hj, hn⟩ := hts.part hk
    have ih := (ih hr hj).trans (run_more_none hn)
    cases k with
    | expression | sum | product =>
      cases hk
      exact run_bind_ok ih
    | comparison | power =>
      cases hk
      refine (run_bind_ok ih).trans (run_bind_ok (run_operator?_none (hts.upcoming ?_)))
      intro op
      cases op <;> decide
    | unary | atom => cases hk
  | @join room k j op c xs ys x y hk ho hx hy ihx ihy =>
    obtain ⟨hj, hn⟩ := hts.part hk
    cases hr with
    | @binary _ names₁ _ _ _ _ _ a b hx hy =>
      rw [List.append_assoc, List.cons_append, ihx hx (clear_operator (tightness_lt_of_joins ho)),
        more_eq_chain hk ho, run_chain_some ho, more_eq_chain hk ho]
      exact run_bind_ok ((ihy hy hj).trans (run_more_none hn))
  | @compare room op c xs ys x y ho hx hy ihx ihy =>
    obtain ⟨hs, -⟩ := hts.part (j := .sum) rfl
    cases hr with
    | @binary _ names₁ _ _ _ _ _ a b hx hy =>
      have hn := not_isAdditive_of_isRelational ho
      obtain ⟨hr, ha⟩ := hts.comparison
      rw [List.append_assoc, List.cons_append]
      refine run_comparison_some ho ?_ ((ihy hy hs).trans (run_more_none ha)) hr
      exact (ihx hx (clear_relational ho)).trans (run_more_none (upcoming_operator hn))
  | @signed room run xs x h he hx ih =>
    refine (run_unary h hx (ih hr hts)).trans ?_
    rw [negation?_even he]
    rfl
  | @negated room run xs minus x h ho hm hx ih =>
    cases hr with
    | negation hr =>
      refine (run_unary h hx (ih hr hts)).trans ?_
      rw [negation?_odd ho hm]
      rfl
  | @exponent room c xs ys x y hx hy ihx ihy =>
    cases hr with
    | binary hx hy =>
      have hc : Clear .atom (⟨.operator .power, c⟩ :: (ys ++ ts)) := clear_operator (by decide)
      rw [List.append_assoc, List.cons_append]
      exact run_power_some (ihx hx hc) (ihy hy hts)
  | literal h =>
    cases hr
    exact run_atom_literal h
  | @parenthesized room l r xs x hx ih =>
    rw [List.append_assoc]
    exact run_parenthesized (run_inside (ih hr) rfl)
  | @call room f c l r xs x hx ih =>
    cases hr with
    | call hr =>
      simp only [List.append_assoc, List.cons_append, List.nil_append]
      exact (run_atom_builtin (.unary f)).trans (run_call (run_inside (ih hr) rfl))
  | @call₂ room f c l m r xs ys x y hx hy ihx ihy =>
    cases hr with
    | call₂ hx hy =>
      simp only [List.append_assoc, List.cons_append, List.nil_append]
      refine (run_atom_builtin (.binary f)).trans ?_
      exact run_call₂ (run_inside (ihx hx) rfl) (run_inside (ihy hy) rfl)
  | @choice room c l m n r xs ys zs x y z hx hy hz ihx ihy ihz =>
    cases hr with
    | choice hx hy hz =>
      simp only [List.append_assoc, List.cons_append, List.nil_append]
      refine run_atom_choice.trans ?_
      exact run_choice (run_inside (ihx hx) rfl) (run_inside (ihy hy) rfl) (run_inside (ihz hz) rfl)
  | pi | euler =>
    cases hr
    rfl
  | name h =>
    cases hr with
    | name hr => exact run_atom_identifier.trans (run_identifier h hr)

end Parser
end FormulaMachine
