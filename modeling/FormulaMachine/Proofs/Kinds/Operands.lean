import FormulaMachine.Proofs.Compilation.Segments
import FormulaMachine.Proofs.Execution
import FormulaMachine.Proofs.Kinds
import Mathlib.Data.List.Forall2

/-!
The kinds of the operands of a run. The machine knows no kinds, but the code of an expression says
of which kinds the operands are that wait at each of its instructions, on whichever way this is come
to, and that there are never more than the expression needs pieces.
-/
namespace FormulaMachine

/-- A boolean is exactly 1 or 0. -/
def Kind.Holds : Kind → Float → Prop
  | number, _ => True
  | boolean, x => x = 1 ∨ x = 0

theorem holds_number (x : Float) : Kind.number.Holds x := trivial

theorem holds_truth (b : Bool) : Kind.boolean.Holds (truth b) := by
  cases b
  · exact .inr rfl
  · exact .inl rfl

theorem Operator.holds_apply (op : Operator) (x y : Float) :
    op.resultKind.Holds (op.apply x y) := by
  cases op with
  | power | multiply | divide | add | subtract => exact holds_number _
  | equal | notEqual | less | lessEqual | greater | greaterEqual | and | or => exact holds_truth _

namespace Program

/-- Code that may be run above operands of the given kinds, the top first. There are never more than
`limit` of them, and one of the kind `result` is left. -/
inductive Accepts (limit : Nat) (result : Kind) : List Opcode → List Kind → Prop
  | done : Accepts limit result [] [result]
  | load {op : Opcode} {code : List Opcode} {kinds : List Kind} : op.isLoad →
    kinds.length < limit → Accepts limit result code (.number :: kinds) →
    Accepts limit result (op :: code) kinds
  | branch {n : Nat} {code : List Opcode} {k : Kind} {kinds : List Kind} :
    Accepts limit result code kinds → Accepts limit result (code.drop n) kinds →
    Accepts limit result (.branch n :: code) (k :: kinds)
  | jump {n : Nat} {code : List Opcode} {kinds : List Kind} :
    Accepts limit result (code.drop n) kinds → Accepts limit result (.jump n :: code) kinds
  | endIf {code : List Opcode} {kinds : List Kind} :
    Accepts limit result code kinds → Accepts limit result (.endIf :: code) kinds
  | negate {code : List Opcode} {kinds : List Kind} :
    Accepts limit result code (.number :: kinds) →
    Accepts limit result (.negate :: code) (.number :: kinds)
  | binary {op : Operator} {code : List Opcode} {kinds : List Kind} :
    Accepts limit result code (op.resultKind :: kinds) →
    Accepts limit result (.binary op :: code) (op.operandKind :: op.operandKind :: kinds)
  | call {f : UnaryFunction} {code : List Opcode} {kinds : List Kind} :
    Accepts limit result code (.number :: kinds) →
    Accepts limit result (.call f :: code) (.number :: kinds)
  | call₂ {f : BinaryFunction} {code : List Opcode} {kinds : List Kind} :
    Accepts limit result code (.number :: kinds) →
    Accepts limit result (.call₂ f :: code) (.number :: .number :: kinds)

variable {limit n ceiling pending used : Nat} {result k : Kind} {kinds : List Kind} {op : Opcode}
  {code : List Opcode} {env : Environment} {s t : State} {x y : Float} {p : Program} {a : Piece}
  {random left : RandomSource}

theorem accepts_operand {o : Operand} (hl : kinds.length < limit)
    (hc : Accepts limit result code (.number :: kinds)) :
    Accepts limit result (o.fragment.code ++ code) kinds := by
  cases o <;> exact .load rfl hl hc

/-- The code of an expression may stand in front of code that accepts its value as well. -/
theorem accepts_piece {e : Expr} (h : e.piece? ceiling pending used = .ok a)
    (hl : kinds.length + e.height ≤ limit) (hc : Accepts limit result code (a.kind :: kinds)) :
    Accepts limit result (a.fragment.code ++ code) kinds := by
  induction e generalizing pending used a code kinds with
  | operand column o =>
    obtain rfl := Expr.piece?_operand h
    exact accepts_operand hl hc
  | negation column x ih =>
    obtain ⟨b, hb, hk, rfl⟩ := Expr.piece?_negation h
    simp only [Fragment.push, List.append_assoc, List.singleton_append]
    exact ih hb hl (hk ▸ .negate hc)
  | call column f x ih =>
    obtain ⟨b, hb, hk, rfl⟩ := Expr.piece?_call h
    simp only [Fragment.push, List.append_assoc, List.singleton_append]
    exact ih hb hl (hk ▸ .call hc)
  | binary column op x y ihx ihy =>
    obtain ⟨b, d, hb, hd, hkb, hkd, rfl⟩ := Expr.piece?_binary h
    simp only [Expr.height] at hl
    simp only [Fragment.push, Fragment.append_code, List.append_assoc, List.singleton_append]
    refine ihx hb (by omega) (ihy hd (by simp only [List.length_cons]; omega) ?_)
    rw [hkb, hkd]
    exact .binary hc
  | call₂ column f x y ihx ihy =>
    obtain ⟨b, d, hb, hd, hkb, hkd, rfl⟩ := Expr.piece?_call₂ h
    simp only [Expr.height] at hl
    simp only [Fragment.push, Fragment.append_code, List.append_assoc, List.singleton_append]
    refine ihx hb (by omega) (ihy hd (by simp only [List.length_cons]; omega) ?_)
    rw [hkb, hkd]
    exact .call₂ hc
  | choice column x y z ihx ihy ihz =>
    obtain ⟨b, d, f, hb, hd, hf, hk, rfl⟩ := Expr.piece?_choice h
    simp only [Expr.height] at hl
    simp only [Fragment.pushChoice_code, List.append_assoc, List.cons_append, List.nil_append]
    -- Both sides are come to with the condition taken off, and lead to the same code.
    have hno : Accepts limit result (f.fragment.code ++ .endIf :: code) kinds :=
      ihz hf (by omega) (.endIf (hk ▸ hc))
    have hend : Accepts limit result (.jump f.fragment.size :: (f.fragment.code ++ .endIf :: code))
        (d.kind :: kinds) := by
      refine .jump ?_
      rw [Fragment.size, List.drop_left]
      exact .endIf hc
    refine ihx hb (by omega) (.branch (ihy hd (by omega) hend) ?_)
    rw [Fragment.size, ← List.drop_drop, List.drop_left]
    exact hno

/-! ### Steps -/

/-- The operands of a state are of kinds that its code accepts. -/
structure State.HasKinds (limit : Nat) (result : Kind) (kinds : List Kind) (s : State) : Prop where
  accepts : Accepts limit result s.code kinds
  operands : List.Forall₂ Kind.Holds kinds s.operands.items
  length_le : kinds.length ≤ limit
  capacity : s.operands.capacity = maxOperands

/-- A step leads to such a state again. It never overflows the stack if so many operands fit on it
as there may be. -/
def Step.KeepsKinds (limit : Nat) (result : Kind) : Step → Prop
  | .next s => ∃ kinds, s.HasKinds limit result kinds
  | .halt => False
  | .fail e _ => limit ≤ maxOperands → e.kind ≠ .stackOverflow

namespace State

theorem HasKinds.height_le (h : s.HasKinds limit result kinds) : s.operands.height ≤ limit := by
  have hl := h.operands.length_eq
  have hle := h.length_le
  rw [Stack.height]
  omega

theorem keepsKinds_push (hc : Accepts limit result s.code (k :: kinds))
    (ho : List.Forall₂ Kind.Holds kinds s.operands.items) (hl : kinds.length < limit)
    (hs : s.operands.capacity = maxOperands) (hk : k.Holds x) :
    (s.push x).KeepsKinds limit result := by
  have hlen := ho.length_eq
  unfold push Stack.push Stack.isFull Stack.height
  split
  · next hp =>
    split at hp <;> cases hp
    exact ⟨k :: kinds, hc, .cons hk ho, hl, hs⟩
  · next hp =>
    split at hp <;> cases hp
    next hfull =>
    intro hmax
    rw [decide_eq_true_eq] at hfull
    omega

theorem keepsKinds_load {x? : Option Float} {detail : String}
    (hc : Accepts limit result s.code (.number :: kinds))
    (ho : List.Forall₂ Kind.Holds kinds s.operands.items) (hl : kinds.length < limit)
    (hs : s.operands.capacity = maxOperands) : (s.load x? detail).KeepsKinds limit result := by
  unfold load
  split
  · exact keepsKinds_push hc ho hl hs trivial
  · exact fun _ => nofun

theorem keepsKinds_skip (hc : Accepts limit result (s.code.drop n) kinds)
    (ho : List.Forall₂ Kind.Holds kinds s.operands.items) (hl : kinds.length ≤ limit)
    (hs : s.operands.capacity = maxOperands) : (s.skip n).KeepsKinds limit result := by
  unfold skip
  split
  · exact ⟨kinds, hc, ho, hl, hs⟩
  · exact fun _ => nofun

theorem keepsKinds_pop {use : Float → State → Step}
    (ho : List.Forall₂ Kind.Holds (k :: kinds) s.operands.items)
    (huse : ∀ x items, List.Forall₂ Kind.Holds kinds items →
      (use x { s with operands := { s.operands with items } }).KeepsKinds limit result) :
    (s.pop use).KeepsKinds limit result := by
  obtain ⟨x, items, -, hi, hx⟩ := List.forall₂_cons_left_iff.mp ho
  simpa only [pop, Stack.pop, hx] using huse x items hi

theorem keepsKinds_pop₂ {use : Float → Float → State → Step}
    (ho : List.Forall₂ Kind.Holds (k :: k :: kinds) s.operands.items)
    (huse : ∀ x y items, List.Forall₂ Kind.Holds kinds items →
      (use x y { s with operands := { s.operands with items } }).KeepsKinds limit result) :
    (s.pop₂ use).KeepsKinds limit result := by
  obtain ⟨y, rest, -, hr, hy⟩ := List.forall₂_cons_left_iff.mp ho
  obtain ⟨x, items, -, hi, rfl⟩ := List.forall₂_cons_left_iff.mp hr
  simpa only [pop₂, Stack.pop₂, hy] using huse x y items hi

/-- One case for each way in which code accepts operands. -/
theorem keepsKinds_perform (hc : Accepts limit result (op :: s.code) kinds)
    (ho : List.Forall₂ Kind.Holds kinds s.operands.items) (hl : kinds.length ≤ limit)
    (hs : s.operands.capacity = maxOperands) (env : Environment) :
    (s.perform env op).KeepsKinds limit result := by
  cases hc with
  | load hop hlt hc =>
    cases op with
    | number => exact keepsKinds_load hc ho hlt hs
    | pi | euler => exact keepsKinds_push hc ho hlt hs (holds_number _)
    | var | ref => exact keepsKinds_load hc ho hlt hs
    | _ => cases hop
  | branch hyes hno =>
    rw [perform]
    refine keepsKinds_pop ho fun x items ho => ?_
    split
    · exact ⟨_, hyes, ho, Nat.le_of_succ_le hl, hs⟩
    · exact keepsKinds_skip hno ho (Nat.le_of_succ_le hl) hs
  | jump hc => exact keepsKinds_skip hc ho hl hs
  | endIf hc => exact ⟨_, hc, ho, hl, hs⟩
  | negate hc | call hc =>
    rw [perform]
    exact keepsKinds_pop ho fun x items ho => keepsKinds_push hc ho hl hs (holds_number _)
  | @binary op _ _ hc =>
    rw [perform]
    exact keepsKinds_pop₂ ho fun x y items ho =>
      keepsKinds_push hc ho (Nat.lt_of_succ_lt hl) hs (op.holds_apply x y)
  | call₂ hc =>
    rw [perform]
    exact keepsKinds_pop₂ ho fun x y items ho =>
      keepsKinds_push hc ho (Nat.lt_of_succ_lt hl) hs (holds_number _)

theorem HasKinds.step (h : s.HasKinds limit result kinds) (env : Environment) :
    s.code = [] ∨ (s.step env).KeepsKinds limit result := by
  obtain ⟨hc, ho, hl, hs⟩ := h
  unfold State.step
  split
  · next hcode => exact .inl hcode
  · next op code hcode =>
    rw [hcode] at hc
    exact .inr (keepsKinds_perform (s := { s with code }) hc ho hl hs env)

/-- What waits for `&` or `|` is boolean. -/
theorem HasKinds.booleans (h : s.HasKinds limit result kinds) {op : Operator}
    (hs : s.code = .binary op :: code) (hop : op.isLogical) : ∃ x y items,
      s.operands.items = y :: x :: items ∧ Kind.boolean.Holds x ∧ Kind.boolean.Holds y := by
  obtain ⟨hc, ho, -, -⟩ := h
  rw [hs] at hc
  have hkind : op.operandKind = .boolean := if_pos hop
  cases hc with
  | load hload => cases hload
  | binary =>
    rw [hkind] at ho
    obtain ⟨y, rest, hy, hr, hrest⟩ := List.forall₂_cons_left_iff.mp ho
    obtain ⟨x, items, hx, -, rfl⟩ := List.forall₂_cons_left_iff.mp hr
    exact ⟨x, y, items, hrest, hx, hy⟩

end State

/-! ### Runs -/

theorem hasKinds_start {e : Expr} (h : e.piece? ceiling 0 0 = .ok a)
    (hp : a.fragment.toProgram? = .ok p) (random : RandomSource) :
    (p.start random).HasKinds e.height a.kind [] := by
  obtain rfl := Except.ok.inj (hp.symm.trans (Expr.piece?_sound h).toProgram?)
  refine ⟨?_, .nil, Nat.zero_le _, rfl⟩
  have hc : Accepts e.height a.kind (a.fragment.code ++ []) [] :=
    accepts_piece h (Nat.le_of_eq (Nat.zero_add _)) .done
  rwa [List.append_nil] at hc

theorem Reaches.hasKinds (h : p.Reaches env random n s)
    (hp : (p.start random).HasKinds limit result []) : ∃ kinds, s.HasKinds limit result kinds := by
  induction h with
  | start => exact ⟨_, hp⟩
  | @step n s t _ hstep ih =>
    obtain ⟨kinds, hs⟩ := ih
    rcases hs.step env with hcode | hkeeps
    · rw [State.step, hcode] at hstep
      cases hstep
    · rwa [hstep] at hkeeps

/-- What is left where the code ends. -/
theorem State.HasKinds.finish_eq (h : s.HasKinds limit result kinds) (hs : s.step env = .halt) :
    ∃ x, result.Holds x ∧
      s.finish = .ok { value := if s.sawNaN then 0 else x, sawNaN := s.sawNaN } := by
  rcases h.step env with hcode | hkeeps
  · obtain ⟨hc, ho, -, -⟩ := h
    rw [hcode] at hc
    cases hc
    obtain ⟨x, rest, hx, hr, hitems⟩ := List.forall₂_cons_left_iff.mp ho
    obtain rfl := List.forall₂_nil_left_iff.mp hr
    exact ⟨x, hx, by rw [finish, hitems]⟩
  · rw [hs] at hkeeps
    cases hkeeps

/-- A run comes to a value of the right kind, or to an error that is no overflow if so many operands
fit on the stack as there may be. -/
theorem run_cases (hp : (p.start random).HasKinds limit result []) (env : Environment) :
    (∃ x sawNaN left, result.Holds x ∧
      p.run env random = (.ok { value := if sawNaN then 0 else x, sawNaN }, left)) ∨
    ∃ e left, p.run env random = (.error e, left) ∧
      (limit ≤ maxOperands → e.kind ≠ .stackOverflow) := by
  obtain ⟨n, hends⟩ := p.exists_ends env random
  cases hends with
  | halts hs hstep hrun =>
    obtain ⟨kinds, hs⟩ := hs.hasKinds hp
    obtain ⟨x, hx, hfinish⟩ := hs.finish_eq hstep
    exact .inl ⟨x, _, _, hx, by rw [hrun, hfinish]⟩
  | fails hs hstep hrun =>
    obtain ⟨kinds, hs⟩ := hs.hasKinds hp
    rcases hs.step env with hcode | hkeeps
    · rw [State.step, hcode] at hstep
      cases hstep
    · rw [hstep] at hkeeps
      exact .inr ⟨_, _, hrun, hkeeps⟩

/-- Every `&` and `|` that a run comes to finds two booleans on the stack. -/
def JoinsBooleans (p : Program) : Prop :=
  ∀ env random n s op code, p.Reaches env random n s → s.code = .binary op :: code →
    op.isLogical → ∃ x y items, s.operands.items = y :: x :: items ∧
      Kind.boolean.Holds x ∧ Kind.boolean.Holds y

theorem joinsBooleans_of_toProgram? {e : Expr} (h : e.toProgram? ceiling = .ok p) :
    p.JoinsBooleans := by
  obtain ⟨a, ha, hp⟩ := Except.ok_of_bind ((e.toProgram?_eq ceiling).symm.trans h)
  intro env random n s op code hs hcode hop
  obtain ⟨kinds, hk⟩ := hs.hasKinds (hasKinds_start ha hp random)
  exact hk.booleans hcode hop

end Program

/-- Kinds are sound though nothing is left of them in a program. What an expression comes to is 1 or
0 if its code has been found boolean, in whatever environment it runs, and so is all that `&` and
`|` are applied to. -/
theorem Expr.kinds_sound :
    (∀ (e : Expr) ceiling a p, e.piece? ceiling 0 0 = .ok a → a.fragment.toProgram? = .ok p →
      p.JoinsBooleans ∧ (a.kind = .boolean → ∀ env random r left,
        p.run env random = (.ok r, left) → r.value = 1 ∨ r.value = 0)) ∧
    ∀ c source f, Compiler.compile c source = .ok f → ∀ p ∈ f.programs, p.JoinsBooleans := by
  refine ⟨fun e ceiling a p ha hp => ⟨?_, fun hk env random r left hrun => ?_⟩,
    fun c source f hf p hp => ?_⟩
  · exact Program.joinsBooleans_of_toProgram? (show e.toProgram? ceiling = .ok p by
      rw [toProgram?_eq, ha]; exact hp)
  · have hstart := Program.hasKinds_start ha hp random
    rcases Program.run_cases hstart env with ⟨x, sawNaN, left, hx, hok⟩ | ⟨error, left, herror, -⟩
    · rw [hok] at hrun
      cases hrun
      rw [hk] at hx
      cases sawNaN with
      | false => exact hx
      | true => exact .inr rfl
    · rw [herror] at hrun
      cases hrun
  · obtain ⟨script, -, hl, hsegments⟩ := Compiler.segments_of_compile hf
    obtain ⟨i, s, hi, hs⟩ := exists_counterpart hp hl.symm
    obtain ⟨e, before, after, -, -, -, hprogram⟩ := hsegments i s p hs hi
    exact Program.joinsBooleans_of_toProgram? hprogram

/-- Comparisons stand on both sides of a choice by a number. -/
theorem Expr.kinds_sound_choice : ∃ e a p,
    e = binary ⟨20, 21⟩ .and
      (choice ⟨0, 2⟩ (operand ⟨3, 4⟩ (.var 0))
        (binary ⟨7, 8⟩ .less (operand ⟨6, 7⟩ (.var 0)) (operand ⟨8, 9⟩ (.literal 2)))
        (binary ⟨12, 13⟩ .equal (operand ⟨11, 12⟩ (.var 1)) (operand ⟨13, 14⟩ (.var 0))))
      (binary ⟨22, 23⟩ .greater (operand ⟨21, 22⟩ (.var 1)) (operand ⟨23, 24⟩ .pi)) ∧
    e.piece? 1 0 0 = .ok a ∧ a.fragment.toProgram? = .ok p ∧ a.kind = .boolean ∧
    ∀ env random r left, p.run env random = (.ok r, left) → r.value = 1 ∨ r.value = 0 := by
  have ha : (binary ⟨20, 21⟩ .and
      (choice ⟨0, 2⟩ (operand ⟨3, 4⟩ (.var 0))
        (binary ⟨7, 8⟩ .less (operand ⟨6, 7⟩ (.var 0)) (operand ⟨8, 9⟩ (.literal 2)))
        (binary ⟨12, 13⟩ .equal (operand ⟨11, 12⟩ (.var 1)) (operand ⟨13, 14⟩ (.var 0))))
      (binary ⟨22, 23⟩ .greater (operand ⟨21, 22⟩ (.var 1)) (operand ⟨23, 24⟩ .pi))).piece? 1 0 0 =
    .ok _ := rfl
  have hp := (piece?_sound ha).toProgram?
  exact ⟨_, _, _, rfl, ha, hp, rfl, (kinds_sound.1 _ _ _ _ ha hp).2 rfl⟩

end FormulaMachine
