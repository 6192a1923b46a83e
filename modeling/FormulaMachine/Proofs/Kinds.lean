import FormulaMachine.Proofs.Code

/-!
The kinds of expressions, told apart without making any code, and what is wrong first where they do
not fit together.
-/
namespace FormulaMachine

namespace Expr

/-- The condition of a choice may be of either kind. -/
inductive HasKind : Expr → Kind → Prop
  | operand {c : Column} {o : Operand} : HasKind (.operand c o) .number
  | negation {c : Column} {x : Expr} : HasKind x .number → HasKind (.negation c x) .number
  | call {c : Column} {f : UnaryFunction} {x : Expr} :
    HasKind x .number → HasKind (.call c f x) .number
  | call₂ {c : Column} {f : BinaryFunction} {x y : Expr} :
    HasKind x .number → HasKind y .number → HasKind (.call₂ c f x y) .number
  | arithmetic {c : Column} {op : Operator} {x y : Expr} :
    op.isLogical = false → op.isRelational = false →
    HasKind x .number → HasKind y .number → HasKind (.binary c op x y) .number
  | comparison {c : Column} {op : Operator} {x y : Expr} : op.isRelational →
    HasKind x .number → HasKind y .number → HasKind (.binary c op x y) .boolean
  | logical {c : Column} {op : Operator} {x y : Expr} : op.isLogical →
    HasKind x .boolean → HasKind y .boolean → HasKind (.binary c op x y) .boolean
  | choice {c : Column} {j k : Kind} {x y z : Expr} :
    HasKind x j → HasKind y k → HasKind z k → HasKind (.choice c x y z) k

/-- The only kind that an expression may have. -/
def kind : Expr → Kind
  | operand _ _ | call _ _ _ | call₂ _ _ _ _ | negation _ _ => .number
  | choice _ _ yes _ => yes.kind
  | binary _ op _ _ => op.resultKind

/-- The column from the first token to the last operand. -/
def span : Expr → Column
  | operand c _ => c
  | call c _ x | negation c x => ⟨c.start, x.span.stop⟩
  | call₂ c _ _ y => ⟨c.start, y.span.stop⟩
  | choice c _ _ no => ⟨c.start, no.span.stop⟩
  | binary _ _ x y => ⟨x.span.start, y.span.stop⟩

def isLiteral : Expr → Bool
  | operand _ o => o.isLiteral
  | _ => false

def literals (e : Expr) : Nat := e.postorder.countP isLiteral

def misfit? (e : Expr) (kind : Kind) : Option Error :=
  if e.kind = kind then none else some { kind := .invalidOperand, column := e.span }

/-- What is wrong with an expression though nothing is wrong with its parts, when it comes after so
many literals. Operands are looked at from left to right. -/
def violation? (ceiling before : Nat) : Expr → Option Error
  | operand column o =>
    if o.isLiteral ∧ ceiling ≤ before then some { kind := .tooManyConstants, column } else none
  | call _ _ x | negation _ x => x.misfit? .number
  | call₂ _ _ x y => (x.misfit? .number).or (y.misfit? .number)
  | binary _ op x y => (x.misfit? op.operandKind).or (y.misfit? op.operandKind)
  | choice _ _ yes no =>
    if yes.kind = no.kind then none
    else some { kind := .invalidOperand, column := no.span, detail := "BRANCHES DIFFER IN TYPE" }

def firstViolation? (ceiling : Nat) : (before : Nat) → List Expr → Option Error
  | _, [] => none
  | before, e :: es =>
    (e.violation? ceiling before).or
      (firstViolation? ceiling (before + if e.isLiteral then 1 else 0) es)

/-- An error is what is wrong with the first part that anything is wrong with, in the order in which
the parts end. -/
def FirstViolation (e : Expr) (ceiling : Nat) (error : Error) : Prop :=
  ∃ before part after, e.postorder = before ++ part :: after ∧
    part.violation? ceiling (before.countP isLiteral) = some error ∧
    ∀ front earlier back, before = front ++ earlier :: back →
      earlier.violation? ceiling (front.countP isLiteral) = none

variable {e x y z : Expr} {c : Column} {ceiling used : Nat} {error : Error} {k : Kind} {p : Piece}
  {es : List Expr}

theorem firstViolation?_append (es fs : List Expr) :
    firstViolation? ceiling used (es ++ fs) =
      (firstViolation? ceiling used es).or
        (firstViolation? ceiling (used + es.countP isLiteral) fs) := by
  induction es generalizing used with
  | nil => rfl
  | cons e es ih =>
    simp only [List.cons_append, firstViolation?, ih, Option.or_assoc, List.countP_cons]
    rw [show used + (es.countP isLiteral + if e.isLiteral then 1 else 0) =
      used + (if e.isLiteral then 1 else 0) + es.countP isLiteral by omega]

theorem firstViolation?_singleton (e : Expr) :
    firstViolation? ceiling used [e] = e.violation? ceiling used := by
  simp [firstViolation?]

theorem firstViolation?_eq_some (h : firstViolation? ceiling used es = some error) :
    ∃ before part after, es = before ++ part :: after ∧
      part.violation? ceiling (used + before.countP isLiteral) = some error ∧
      ∀ front earlier back, before = front ++ earlier :: back →
        earlier.violation? ceiling (used + front.countP isLiteral) = none := by
  induction es generalizing used with
  | nil => cases h
  | cons e es ih =>
    rw [firstViolation?, Option.or_eq_some_iff] at h
    rcases h with h | ⟨hnone, h⟩
    · refine ⟨[], e, es, rfl, h, fun front earlier back heq => ?_⟩
      simp at heq
    · obtain ⟨before, part, after, rfl, hpart, hbefore⟩ := ih h
      refine ⟨e :: before, part, after, rfl, ?_, fun front earlier back heq => ?_⟩
      · rw [List.countP_cons]
        rwa [Nat.add_right_comm, Nat.add_assoc] at hpart
      · cases front with
        | nil =>
          obtain ⟨rfl, rfl⟩ := List.cons.inj heq
          exact hnone
        | cons f front =>
          obtain ⟨rfl, rfl⟩ := List.cons.inj heq
          have hearlier := hbefore front earlier back rfl
          rw [List.countP_cons]
          rwa [Nat.add_right_comm, Nat.add_assoc] at hearlier

theorem firstViolation_of_postorder (h : firstViolation? ceiling 0 e.postorder = some error) :
    e.FirstViolation ceiling error := by
  obtain ⟨before, part, after, heq, hpart, hbefore⟩ := firstViolation?_eq_some h
  simp only [Nat.zero_add] at hpart hbefore
  exact ⟨before, part, after, heq, hpart, hbefore⟩

theorem misfit?_kind (h : x.misfit? k = some error) : error.kind = .invalidOperand := by
  unfold misfit? at h
  split at h <;> cases h
  rfl

theorem violation?_kind (h : e.violation? ceiling used = some error) :
    error.kind = .invalidOperand ∨ error.kind = .tooManyConstants := by
  cases e with
  | operand c o =>
    rw [violation?] at h
    split at h <;> cases h
    exact .inr rfl
  | call | negation => exact .inl (misfit?_kind h)
  | call₂ | binary =>
    rw [violation?, Option.or_eq_some_iff] at h
    rcases h with h | ⟨-, h⟩
    · exact .inl (misfit?_kind h)
    · exact .inl (misfit?_kind h)
  | choice =>
    rw [violation?] at h
    split at h <;> cases h
    exact .inl rfl

theorem FirstViolation.kind (h : e.FirstViolation ceiling error) :
    error.kind = .invalidOperand ∨ error.kind = .tooManyConstants := by
  obtain ⟨_, _, _, -, hpart, -⟩ := h
  exact violation?_kind hpart

/-! ### Parts in front of a whole -/

theorem literals_of_postorder (h : e.postorder = es ++ [e]) (he : e.isLiteral = false) :
    e.literals = es.countP isLiteral := by
  rw [literals, h, List.countP_append, List.countP_singleton, he]
  rfl

@[simp] theorem literals_operand (o : Operand) :
    (operand c o).literals = if o.isLiteral then 1 else 0 := List.countP_singleton

@[simp] theorem literals_call (f : UnaryFunction) : (call c f x).literals = x.literals :=
  literals_of_postorder rfl rfl

@[simp] theorem literals_negation : (negation c x).literals = x.literals :=
  literals_of_postorder rfl rfl

@[simp] theorem literals_call₂ (f : BinaryFunction) :
    (call₂ c f x y).literals = x.literals + y.literals :=
  (literals_of_postorder rfl rfl).trans List.countP_append

@[simp] theorem literals_binary (op : Operator) :
    (binary c op x y).literals = x.literals + y.literals :=
  (literals_of_postorder rfl rfl).trans List.countP_append

@[simp] theorem literals_choice :
    (choice c x y z).literals = x.literals + y.literals + z.literals := by
  have h : (choice c x y z).literals =
      (x.postorder ++ y.postorder ++ z.postorder).countP isLiteral := literals_of_postorder rfl rfl
  rw [h, List.countP_append, List.countP_append]
  rfl

/-- The first violation of a whole, `used` literals having come before it. -/
def fault? (e : Expr) (ceiling used : Nat) : Option Error :=
  firstViolation? ceiling used e.postorder

theorem fault?_of_postorder (h : e.postorder = es ++ [e]) :
    e.fault? ceiling used = (firstViolation? ceiling used es).or
      (e.violation? ceiling (used + es.countP isLiteral)) := by
  rw [fault?, h, firstViolation?_append, firstViolation?_singleton]

theorem fault?_pair (h : e.postorder = x.postorder ++ y.postorder ++ [e]) :
    e.fault? ceiling used = (x.fault? ceiling used).or
      ((y.fault? ceiling (used + x.literals)).or
        (e.violation? ceiling (used + (x.postorder ++ y.postorder).countP isLiteral))) := by
  rw [fault?_of_postorder h, firstViolation?_append, Option.or_assoc]
  rfl

theorem fault?_operand (o : Operand) : (operand c o).fault? ceiling used =
    if o.isLiteral ∧ ceiling ≤ used then some { kind := .tooManyConstants, column := c }
    else none :=
  firstViolation?_singleton _

theorem fault?_call (f : UnaryFunction) :
    (call c f x).fault? ceiling used = (x.fault? ceiling used).or (x.misfit? .number) :=
  fault?_of_postorder rfl

theorem fault?_negation :
    (negation c x).fault? ceiling used = (x.fault? ceiling used).or (x.misfit? .number) :=
  fault?_of_postorder rfl

theorem fault?_call₂ (f : BinaryFunction) :
    (call₂ c f x y).fault? ceiling used =
      (x.fault? ceiling used).or ((y.fault? ceiling (used + x.literals)).or
        ((x.misfit? .number).or (y.misfit? .number))) :=
  fault?_pair rfl

theorem fault?_binary (op : Operator) :
    (binary c op x y).fault? ceiling used =
      (x.fault? ceiling used).or ((y.fault? ceiling (used + x.literals)).or
        ((x.misfit? op.operandKind).or (y.misfit? op.operandKind))) :=
  fault?_pair rfl

theorem fault?_choice :
    (choice c x y z).fault? ceiling used =
      (x.fault? ceiling used).or ((y.fault? ceiling (used + x.literals)).or
        ((z.fault? ceiling (used + x.literals + y.literals)).or
          (if y.kind = z.kind then none
          else some { kind := .invalidOperand, column := z.span,
                      detail := "BRANCHES DIFFER IN TYPE" }))) := by
  have h : (choice c x y z).fault? ceiling used =
      (firstViolation? ceiling used (x.postorder ++ y.postorder ++ z.postorder)).or _ :=
    fault?_of_postorder rfl
  rw [firstViolation?_append, firstViolation?_append, List.countP_append, ← Nat.add_assoc,
    Option.or_assoc, Option.or_assoc] at h
  exact h

/-! ### Kinds and literals decide -/

theorem misfit?_eq_none : x.misfit? k = none ↔ x.kind = k := by
  unfold misfit?
  split <;> simp_all

theorem hasKind_binary {op : Operator} (hx : x.HasKind op.operandKind)
    (hy : y.HasKind op.operandKind) : (binary c op x y).HasKind op.resultKind := by
  unfold Operator.operandKind at hx hy
  unfold Operator.resultKind
  by_cases hl : op.isLogical
  · rw [if_pos hl] at hx hy
    simpa [hl] using HasKind.logical hl hx hy
  · rw [if_neg hl] at hx hy
    by_cases hr : op.isRelational
    · simpa [hr] using HasKind.comparison hr hx hy
    · simpa [hl, hr] using HasKind.arithmetic (by simpa using hl) (by simpa using hr) hx hy

theorem HasKind.of_binary {op : Operator} (h : (binary c op x y).HasKind k) :
    x.HasKind op.operandKind ∧ y.HasKind op.operandKind ∧ k = op.resultKind := by
  cases h with
  | arithmetic hl hr hx hy => simp_all [Operator.operandKind, Operator.resultKind]
  | comparison hr hx hy =>
    have hl : op.isLogical = false := by
      cases op <;> first | rfl | cases hr
    simp_all [Operator.operandKind, Operator.resultKind]
  | logical hl hx hy => simp_all [Operator.operandKind, Operator.resultKind]

theorem HasKind.kind_eq (h : e.HasKind k) : e.kind = k := by
  induction h with
  | operand | negation | call | call₂ => rfl
  | arithmetic hl hr => simp [kind, Operator.resultKind, hl, hr]
  | comparison hr => simp [kind, Operator.resultKind, hr]
  | logical hl => simp [kind, Operator.resultKind, hl]
  | choice _ _ _ _ ihy _ => exact ihy

/-- Where nothing is wrong, the kinds fit, and the literals do not exceed a ceiling that the ones
before them have not exceeded. -/
theorem hasKind_of_fault? (h : e.fault? ceiling used = none) :
    e.HasKind e.kind ∧ (used ≤ ceiling → used + e.literals ≤ ceiling) := by
  induction e generalizing used with
  | operand c o =>
    refine ⟨.operand, fun hu => ?_⟩
    rw [fault?_operand] at h
    rw [literals_operand]
    split at h
    · cases h
    · split <;> grind
  | call c f x ih =>
    rw [fault?_call, Option.or_eq_none_iff, misfit?_eq_none] at h
    obtain ⟨hx, hl⟩ := ih h.1
    exact ⟨.call (h.2 ▸ hx), by simpa using hl⟩
  | negation c x ih =>
    rw [fault?_negation, Option.or_eq_none_iff, misfit?_eq_none] at h
    obtain ⟨hx, hl⟩ := ih h.1
    exact ⟨.negation (h.2 ▸ hx), by simpa using hl⟩
  | call₂ c f x y ihx ihy =>
    simp only [fault?_call₂, Option.or_eq_none_iff, misfit?_eq_none] at h
    obtain ⟨hx, hy, hkx, hky⟩ := h
    obtain ⟨hx, hlx⟩ := ihx hx
    obtain ⟨hy, hly⟩ := ihy hy
    refine ⟨.call₂ (hkx ▸ hx) (hky ▸ hy), fun hu => ?_⟩
    have := hly (hlx hu)
    rw [literals_call₂]
    omega
  | binary c op x y ihx ihy =>
    simp only [fault?_binary, Option.or_eq_none_iff, misfit?_eq_none] at h
    obtain ⟨hx, hy, hkx, hky⟩ := h
    obtain ⟨hx, hlx⟩ := ihx hx
    obtain ⟨hy, hly⟩ := ihy hy
    refine ⟨hasKind_binary (hkx ▸ hx) (hky ▸ hy), fun hu => ?_⟩
    have := hly (hlx hu)
    rw [literals_binary]
    omega
  | choice c x y z ihx ihy ihz =>
    simp only [fault?_choice, Option.or_eq_none_iff] at h
    obtain ⟨hx, hy, hz, hk⟩ := h
    obtain ⟨hx, hlx⟩ := ihx hx
    obtain ⟨hy, hly⟩ := ihy hy
    obtain ⟨hz, hlz⟩ := ihz hz
    have hk : y.kind = z.kind := by
      split at hk
      · assumption
      · cases hk
    refine ⟨.choice hx hy (hk ▸ hz), fun hu => ?_⟩
    have := hlz (hly (hlx hu))
    rw [literals_choice]
    omega

theorem HasKind.fault?_eq_none (h : e.HasKind k) (hl : used + e.literals ≤ ceiling) :
    e.fault? ceiling used = none := by
  induction e generalizing used k with
  | operand c o =>
    rw [fault?_operand, if_neg]
    rintro ⟨ho, hu⟩
    rw [literals_operand, if_pos ho] at hl
    omega
  | negation c x ih =>
    cases h with
    | negation hx =>
      rw [fault?_negation, Option.or_eq_none_iff, misfit?_eq_none]
      exact ⟨ih hx (by simpa using hl), hx.kind_eq⟩
  | call c f x ih =>
    cases h with
    | call hx =>
      rw [fault?_call, Option.or_eq_none_iff, misfit?_eq_none]
      exact ⟨ih hx (by simpa using hl), hx.kind_eq⟩
  | call₂ c f x y ihx ihy =>
    rw [literals_call₂] at hl
    simp only [fault?_call₂, Option.or_eq_none_iff, misfit?_eq_none]
    cases h with
    | call₂ hx hy => exact ⟨ihx hx (by omega), ihy hy (by omega), hx.kind_eq, hy.kind_eq⟩
  | binary c op x y ihx ihy =>
    rw [literals_binary] at hl
    simp only [fault?_binary, Option.or_eq_none_iff, misfit?_eq_none]
    obtain ⟨hx, hy, -⟩ := h.of_binary
    exact ⟨ihx hx (by omega), ihy hy (by omega), hx.kind_eq, hy.kind_eq⟩
  | choice c x y z ihx ihy ihz =>
    rw [literals_choice] at hl
    simp only [fault?_choice, Option.or_eq_none_iff]
    cases h with
    | choice hx hy hz =>
      refine ⟨ihx hx (by omega), ihy hy (by omega), ihz hz (by omega), ?_⟩
      exact if_pos (hy.kind_eq.trans hz.kind_eq.symm)

/-! ### Pieces -/

/-- The largest number of pieces that there are at a time while the code is made. -/
def height : Expr → Nat
  | operand _ _ => 1
  | call _ _ x | negation _ x => x.height
  | call₂ _ _ x y | binary _ _ x y => max x.height (y.height + 1)
  | choice _ condition yes no => max condition.height (max (yes.height + 1) (no.height + 2))

/-- A piece tells what is known of its expression without it. -/
structure Describes (p : Piece) (e : Expr) : Prop where
  kind : p.kind = e.kind
  column : p.column = e.span
  constants : p.fragment.constants.length = e.literals

/-- What is made is good and there is no fault, or the error is the fault, or a stack overflows that
may overflow. -/
def Finds {α : Type} (good : α → Prop) (overflows : Prop) (fault : Option Error) :
    Except Error α → Prop
  | .ok a => good a ∧ fault = none
  | .error error => overflows ∧ error.kind = .stackOverflow ∨ fault = some error

/-- What follows is only looked at where there was no fault. -/
theorem Finds.bind {α β : Type} {good : α → Prop} {good' : β → Prop} {overflows overflows' : Prop}
    {fault fault' : Option Error} {m : Except Error α} {f : α → Except Error β}
    (hm : Finds good overflows fault m) (ho : overflows → overflows')
    (hf : ∀ a, good a → Finds good' overflows' fault' (f a)) :
    Finds good' overflows' (fault.or fault') (m >>= f) := by
  cases m with
  | error error =>
    rcases hm with ⟨hover, hk⟩ | hfault
    · exact .inl ⟨ho hover, hk⟩
    · exact .inr (by rw [hfault, Option.some_or])
  | ok a =>
    obtain ⟨ha, hfault⟩ := hm
    rw [hfault, Option.none_or]
    exact hf a ha

theorem Finds.bind_pure {α β : Type} {good : α → Prop} {good' : β → Prop} {overflows : Prop}
    {fault : Option Error} {m : Except Error α} {f : α → β}
    (hm : Finds good overflows fault m) (hf : ∀ a, good a → good' (f a)) :
    Finds good' overflows fault (m >>= fun a => pure (f a)) := by
  have h := hm.bind id fun a ha => show Finds good' overflows none (pure (f a)) from ⟨hf a ha, rfl⟩
  rwa [Option.or_none] at h

theorem Describes.finds_expect (h : Describes p e) (k : Kind) (overflows : Prop) :
    Finds (fun _ => True) overflows (e.misfit? k) (p.expect k) := by
  rw [Piece.expect, misfit?, h.kind, h.column]
  split
  · exact ⟨trivial, rfl⟩
  · exact .inr rfl

/-- Where the pieces do not become too many, it is the first violation that no piece is made for. -/
theorem finds_piece? (e : Expr) (ceiling pending used : Nat) :
    Finds (Describes · e) (maxPending < pending + e.height) (e.fault? ceiling used)
      (e.piece? ceiling pending used) := by
  induction e generalizing pending used with
  | operand c o =>
    rw [fault?_operand, piece?]
    split
    · exact .inr rfl
    · split
      · next hfull => exact .inl ⟨Nat.lt_succ_of_le hfull, rfl⟩
      · refine ⟨⟨rfl, rfl, ?_⟩, rfl⟩
        rw [literals_operand]
        cases o <;> rfl
  | negation c x ih =>
    rw [fault?_negation]
    refine (ih pending used).bind id fun a ha => ?_
    refine (ha.finds_expect .number _).bind_pure fun _ _ => ?_
    have hc := ha.column
    have hl := ha.constants
    exact ⟨rfl, by simp [span, hc], by simpa [Fragment.push] using hl⟩
  | call c f x ih =>
    rw [fault?_call]
    refine (ih pending used).bind id fun a ha => ?_
    refine (ha.finds_expect .number _).bind_pure fun _ _ => ?_
    have hc := ha.column
    have hl := ha.constants
    exact ⟨rfl, by simp [span, hc], by simpa [Fragment.push] using hl⟩
  | call₂ c f x y ihx ihy =>
    rw [fault?_call₂]
    refine (ihx pending used).bind (by simp only [height]; omega) fun a ha => ?_
    rw [ha.constants]
    refine (ihy (pending + 1) _).bind (by simp only [height]; omega) fun b hb => ?_
    refine (ha.finds_expect .number _).bind id fun _ _ => ?_
    refine (hb.finds_expect .number _).bind_pure fun _ _ => ?_
    exact ⟨rfl, by simp [span, hb.column], by simp [Fragment.push, ha.constants, hb.constants]⟩
  | binary c op x y ihx ihy =>
    rw [fault?_binary]
    refine (ihx pending used).bind (by simp only [height]; omega) fun a ha => ?_
    rw [ha.constants]
    refine (ihy (pending + 1) _).bind (by simp only [height]; omega) fun b hb => ?_
    refine (ha.finds_expect op.operandKind _).bind id fun _ _ => ?_
    refine (hb.finds_expect op.operandKind _).bind_pure fun _ _ => ?_
    exact ⟨rfl, by simp [span, ha.column, hb.column],
      by simp [Fragment.push, ha.constants, hb.constants]⟩
  | choice c x y z ihx ihy ihz =>
    rw [fault?_choice]
    refine (ihx pending used).bind (by simp only [height]; omega) fun a ha => ?_
    rw [ha.constants]
    refine (ihy (pending + 1) _).bind (by simp only [height]; omega) fun b hb => ?_
    rw [hb.constants]
    refine (ihz (pending + 2) _).bind (by simp only [height]; omega) fun d hd => ?_
    rw [← hb.kind, ← hd.kind]
    split
    · refine ⟨⟨hb.kind, by simp [span, hd.column], ?_⟩, rfl⟩
      simp [Fragment.pushChoice_constants, ha.constants, hb.constants, hd.constants, Nat.add_assoc]
    · exact .inr (by rw [hd.column])

/-- No program is refused once its pieces are made. -/
theorem finds_toProgram? (e : Expr) (ceiling : Nat) :
    Finds (fun _ => True) (maxPending < e.height) (e.fault? ceiling 0) (e.toProgram? ceiling) := by
  have hp := finds_piece? e ceiling 0 0
  rw [Nat.zero_add] at hp
  cases h : e.piece? ceiling 0 0 with
  | error error =>
    rw [h] at hp
    rw [toProgram?_eq, h]
    exact hp
  | ok p =>
    rw [h] at hp
    rw [toProgram?_of_piece? h]
    exact ⟨trivial, hp.2⟩

theorem hasKind_of_toProgram? {p : Program} (h : e.toProgram? ceiling = .ok p) :
    e.HasKind e.kind ∧ e.literals ≤ ceiling := by
  have hf := finds_toProgram? e ceiling
  rw [h] at hf
  obtain ⟨hk, hl⟩ := hasKind_of_fault? hf.2
  exact ⟨hk, by simpa using hl (Nat.zero_le _)⟩

end Expr
end FormulaMachine
