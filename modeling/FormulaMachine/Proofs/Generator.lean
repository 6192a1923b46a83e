import FormulaMachine.Generator

/-!
What the generator does, told without its stack: the code of an expression comes from that of its
parts. To go over an expression puts one piece on the stack and leaves those below as they are, so
there are always as many pieces as are taken off.
-/
namespace FormulaMachine

def Operand.isLiteral : Operand → Bool
  | literal _ => true
  | _ => false

namespace Expr

/-- The code of an expression, while `pending` pieces wait and `used` constants have been loaded
before it. -/
def piece? (ceiling pending used : Nat) : Expr → Except Error Piece
  | operand column o =>
    if o.isLiteral ∧ ceiling ≤ used then .error { kind := .tooManyConstants, column }
    else if maxPending ≤ pending then
      .error { kind := .stackOverflow, column, detail := "EXPRESSION TOO COMPLEX" }
    else .ok ⟨column, .number, o.fragment⟩
  | negation column x => do
    let x ← x.piece? ceiling pending used
    x.expect .number
    return ⟨⟨column.start, x.column.stop⟩, .number, x.fragment.push .negate⟩
  | binary _ op x y => do
    let x ← x.piece? ceiling pending used
    let y ← y.piece? ceiling (pending + 1) (used + x.fragment.constants.length)
    x.expect op.operandKind
    y.expect op.operandKind
    return ⟨⟨x.column.start, y.column.stop⟩, op.resultKind,
      (x.fragment ++ y.fragment).push (.binary op)⟩
  | call column f x => do
    let x ← x.piece? ceiling pending used
    x.expect .number
    return ⟨⟨column.start, x.column.stop⟩, .number, x.fragment.push (.call f)⟩
  | call₂ column f x y => do
    let x ← x.piece? ceiling pending used
    let y ← y.piece? ceiling (pending + 1) (used + x.fragment.constants.length)
    x.expect .number
    y.expect .number
    return ⟨⟨column.start, y.column.stop⟩, .number, (x.fragment ++ y.fragment).push (.call₂ f)⟩
  | choice column condition yes no => do
    let condition ← condition.piece? ceiling pending used
    let used := used + condition.fragment.constants.length
    let yes ← yes.piece? ceiling (pending + 1) used
    let no ← no.piece? ceiling (pending + 2) (used + yes.fragment.constants.length)
    if yes.kind = no.kind then
      return ⟨⟨column.start, no.column.stop⟩, yes.kind,
        condition.fragment.pushChoice yes.fragment no.fragment⟩
    else
      .error { kind := .invalidOperand, column := no.column, detail := "BRANCHES DIFFER IN TYPE" }

/-- A piece that is made has room on the stack. -/
theorem lt_maxPending_of_piece? {e : Expr} {ceiling pending used : Nat} {p : Piece}
    (h : e.piece? ceiling pending used = .ok p) : pending < maxPending := by
  induction e generalizing pending used p with
  | operand column o =>
    rw [piece?] at h
    split at h
    · cases h
    · split at h
      · cases h
      · omega
  | negation column x ih | call column f x ih =>
    rw [piece?] at h
    cases hx : x.piece? ceiling pending used with
    | error e => rw [hx] at h; cases h
    | ok a => exact ih hx
  | binary column op x y ih | call₂ column f x y ih =>
    rw [piece?] at h
    cases hx : x.piece? ceiling pending used with
    | error e => rw [hx] at h; cases h
    | ok a => exact ih hx
  | choice column x y z ih =>
    rw [piece?] at h
    cases hx : x.piece? ceiling pending used with
    | error e => rw [hx] at h; cases h
    | ok a => exact ih hx

end Expr

namespace Fragment

@[simp] theorem append_constants (f g : Fragment) :
    (f ++ g).constants = f.constants ++ g.constants := rfl

theorem pushChoice_constants (f yes no : Fragment) :
    (f.pushChoice yes no).constants = f.constants ++ yes.constants ++ no.constants := by
  simp [pushChoice, Fragment.push]

end Fragment

namespace Generator

variable {g : Generator} {p a b c : Piece} {e x y z : Expr} {column : Column} {n : Nat}

/-- With so many more constants asked for. -/
def count (g : Generator) (n : Nat) : Generator := { g with constants := g.constants + n }

/-- With one more piece on the stack, and its constants asked for. -/
def add (g : Generator) (p : Piece) : Generator :=
  { g.count p.fragment.constants.length with
      pieces := { g.pieces with items := p :: g.pieces.items } }

/-- The stack is a generator's. -/
structure Proper (g : Generator) : Prop where
  capacity : g.pieces.capacity = Expr.maxPending
  overflow : g.pieces.overflow = "EXPRESSION TOO COMPLEX"

theorem Proper.add (hg : g.Proper) (p : Piece) : (g.add p).Proper := ⟨hg.capacity, hg.overflow⟩

theorem Proper.count (hg : g.Proper) (n : Nat) : (g.count n).Proper := ⟨hg.capacity, hg.overflow⟩

@[simp] theorem height_add : (g.add p).pieces.height = g.pieces.height + 1 := rfl

@[simp] theorem height_count : (g.count n).pieces.height = g.pieces.height := rfl

theorem count_count (n m : Nat) : (g.count n).count m = g.count (n + m) := by
  simp only [count, Nat.add_assoc]

/-- Where there is room a piece is put on the stack, if its constants have been asked for before. -/
theorem push_of_lt (hg : g.Proper) (h : g.pieces.height < Expr.maxPending)
    (hn : p.fragment.constants.length = n) : (g.count n).push p = .ok (g.add p) := by
  have hfull : (g.count n).pieces.isFull = false := by
    simp only [Stack.isFull, (hg.count n).capacity, height_count, decide_eq_false_iff_not]
    omega
  rw [push, Stack.push, if_neg (by rw [hfull]; exact Bool.false_ne_true), ← hn]
  rfl

theorem push_of_le (hg : g.Proper) (h : Expr.maxPending ≤ g.pieces.height) :
    g.push p = .error { kind := .stackOverflow, column := p.column,
                        detail := "EXPRESSION TOO COMPLEX" } := by
  have hfull : g.pieces.isFull = true := by
    simp only [Stack.isFull, hg.capacity, decide_eq_true_eq]
    exact h
  simp only [push, Stack.push, hfull, if_true, hg.overflow]

theorem pop₂_add (kind : Kind) : ((g.add a).add b).pop₂ kind = (do
    a.expect kind
    b.expect kind
    return (a, b, g.count (a.fragment.constants.length + b.fragment.constants.length))) := by
  rw [← count_count]
  rfl

theorem popN_one : (g.add a).popN 1 = .ok ([a], g.count a.fragment.constants.length) := by
  have h : 1 ≤ (g.add a).pieces.height := by simp
  simp only [popN, Stack.popN, h, if_true]
  rfl

theorem popN_two : ((g.add a).add b).popN 2 =
    .ok ([a, b], g.count (a.fragment.constants.length + b.fragment.constants.length)) := by
  have h : 2 ≤ ((g.add a).add b).pieces.height := by simp
  simp only [popN, Stack.popN, h, if_true]
  rw [← count_count]
  rfl

/-! The pieces of the parts are the ones that are taken off, so that one piece takes their place. -/

theorem visit_operand (hg : g.Proper) (o : Operand) : g.visit (.operand column o) =
    ((Expr.operand column o).piece? g.ceiling g.pieces.height g.constants).map g.add := by
  have hpush (n : Nat) (ho : o.fragment.constants.length = n) :
      (g.count n).push ⟨column, .number, o.fragment⟩ =
        (if Expr.maxPending ≤ g.pieces.height then
          .error { kind := .stackOverflow, column, detail := "EXPRESSION TOO COMPLEX" }
        else .ok ⟨column, .number, o.fragment⟩ : Except Error Piece).map g.add := by
    split
    · next h => exact push_of_le (hg.count n) h
    · next h => exact push_of_lt hg (Nat.lt_of_not_le h) ho
  rw [Expr.piece?]
  cases o with
  | literal v =>
    simp only [Operand.isLiteral, true_and]
    split
    · next h =>
      have hc : g.ceiling < g.constants + 1 := Nat.lt_succ_of_le h
      simp only [visit, piece, operand, hc, if_true]
      rfl
    · next h =>
      have hc : ¬ g.ceiling < g.constants + 1 := fun hc => h (Nat.le_of_lt_succ hc)
      rw [← hpush 1 rfl]
      simp only [visit, piece, operand, hc, if_false]
      rfl
  | pi | euler | var | ref =>
    simp only [Operand.isLiteral, Bool.false_eq_true, false_and, if_false]
    exact hpush 0 rfl

theorem visit_negation (hg : g.Proper) (h : g.pieces.height < Expr.maxPending) :
    (g.add a).visit (.negation column x) = (do
      a.expect .number
      return ⟨⟨column.start, a.column.stop⟩, .number, a.fragment.push .negate⟩ :
      Except Error Piece).map g.add := by
  have hp : (g.add a).piece (.negation column x) = (do
      a.expect .number
      return (⟨⟨column.start, a.column.stop⟩, .number, a.fragment.push .negate⟩, g.count _)) := rfl
  rw [visit, hp]
  cases a.expect .number with
  | error e => rfl
  | ok _ => exact push_of_lt hg h rfl

theorem visit_call (hg : g.Proper) (h : g.pieces.height < Expr.maxPending) (f : UnaryFunction) :
    (g.add a).visit (.call column f x) = (do
      a.expect .number
      return ⟨⟨column.start, a.column.stop⟩, .number, a.fragment.push (.call f)⟩ :
      Except Error Piece).map g.add := by
  have hf : Builtin.ofName? f.name = some (.unary f) := Builtin.ofName?_name (.unary f)
  simp only [visit, piece, call, hf, Builtin.arity, ne_eq, not_true_eq_false, if_false, popN_one]
  change (arguments .empty column.stop [a] >>= _) >>= _ = _
  rw [arguments]
  cases a.expect .number with
  | error e => rfl
  | ok _ => exact push_of_lt hg h rfl

theorem visit_binary (hg : g.Proper) (h : g.pieces.height < Expr.maxPending) (op : Operator) :
    ((g.add a).add b).visit (.binary column op x y) = (do
      a.expect op.operandKind
      b.expect op.operandKind
      return ⟨⟨a.column.start, b.column.stop⟩, op.resultKind,
        (a.fragment ++ b.fragment).push (.binary op)⟩ : Except Error Piece).map g.add := by
  rw [visit, piece, binary, pop₂_add]
  cases a.expect op.operandKind with
  | error e => rfl
  | ok _ =>
    cases b.expect op.operandKind with
    | error e => rfl
    | ok _ => exact push_of_lt hg h List.length_append

theorem visit_call₂ (hg : g.Proper) (h : g.pieces.height < Expr.maxPending) (f : BinaryFunction) :
    ((g.add a).add b).visit (.call₂ column f x y) = (do
      a.expect .number
      b.expect .number
      return ⟨⟨column.start, b.column.stop⟩, .number,
        (a.fragment ++ b.fragment).push (.call₂ f)⟩ : Except Error Piece).map g.add := by
  have hf : Builtin.ofName? f.name = some (.binary f) := Builtin.ofName?_name (.binary f)
  simp only [visit, piece, call, hf, Builtin.arity, ne_eq, not_true_eq_false, if_false, popN_two]
  change (arguments .empty column.stop [a, b] >>= _) >>= _ = _
  rw [arguments, arguments]
  cases a.expect .number with
  | error e => rfl
  | ok _ =>
    cases b.expect .number with
    | error e => rfl
    | ok _ => exact push_of_lt hg h List.length_append

theorem visit_choice (hg : g.Proper) (h : g.pieces.height < Expr.maxPending) :
    (((g.add a).add b).add c).visit (.choice column x y z) =
      (if b.kind = c.kind then
        .ok ⟨⟨column.start, c.column.stop⟩, b.kind, a.fragment.pushChoice b.fragment c.fragment⟩
      else
        .error {
          kind := .invalidOperand, column := c.column, detail := "BRANCHES DIFFER IN TYPE" } :
        Except Error Piece).map g.add := by
  have hn : (a.fragment.pushChoice b.fragment c.fragment).constants.length =
      a.fragment.constants.length + b.fragment.constants.length + c.fragment.constants.length := by
    simp [Fragment.pushChoice_constants, Nat.add_assoc]
  have hp := push_of_lt (p := ⟨⟨column.start, c.column.stop⟩, b.kind,
    a.fragment.pushChoice b.fragment c.fragment⟩) hg h hn
  rw [← count_count, ← count_count] at hp
  change (if b.kind = c.kind then _ else _) >>= _ = _
  split
  · exact hp
  · rfl

/-- With one piece put on the stack for the first part, the generator goes on to the next. -/
theorem foldlM_part {es : List Expr} {f : Piece → Except Error Piece} {made : Piece → Generator}
    (hx : x.postorder.foldlM visit g =
      (x.piece? g.ceiling g.pieces.height g.constants).map g.add)
    (h : ∀ a, x.piece? g.ceiling g.pieces.height g.constants = .ok a →
      es.foldlM visit (g.add a) = (f a).map made) :
    (x.postorder ++ es).foldlM visit g =
      (x.piece? g.ceiling g.pieces.height g.constants >>= f).map made := by
  rw [List.foldlM_append, hx]
  cases hp : x.piece? g.ceiling g.pieces.height g.constants with
  | error e => rfl
  | ok a => exact h a hp

/-- Where an expression is gone over, one piece is put on the stack: the piece of the expression
with as many pieces waiting, and as many constants asked for, as the generator says. -/
theorem foldlM_visit (e : Expr) (hg : g.Proper) : e.postorder.foldlM visit g =
    (e.piece? g.ceiling g.pieces.height g.constants).map g.add := by
  have hlast (e : Expr) (g : Generator) : [e].foldlM visit g = g.visit e := bind_pure _
  -- the last part is visited with the pieces of the others on top, as they have been put there
  induction e generalizing g with
  | operand column o => exact (hlast _ g).trans (visit_operand hg o)
  | negation column x ih =>
    rw [Expr.postorder, Expr.piece?]
    refine foldlM_part (ih hg) fun a ha => (hlast _ _).trans ?_
    exact visit_negation hg (Expr.lt_maxPending_of_piece? ha)
  | call column f x ih =>
    rw [Expr.postorder, Expr.piece?]
    refine foldlM_part (ih hg) fun a ha => (hlast _ _).trans ?_
    exact visit_call hg (Expr.lt_maxPending_of_piece? ha) f
  | binary column op x y ihx ihy =>
    rw [Expr.postorder, List.append_assoc, Expr.piece?]
    refine foldlM_part (ihx hg) fun a ha => foldlM_part (ihy (hg.add a)) fun b _ => ?_
    exact (hlast _ _).trans (visit_binary hg (Expr.lt_maxPending_of_piece? ha) op)
  | call₂ column f x y ihx ihy =>
    rw [Expr.postorder, List.append_assoc, Expr.piece?]
    refine foldlM_part (ihx hg) fun a ha => foldlM_part (ihy (hg.add a)) fun b _ => ?_
    exact (hlast _ _).trans (visit_call₂ hg (Expr.lt_maxPending_of_piece? ha) f)
  | choice column x y z ihx ihy ihz =>
    rw [Expr.postorder, List.append_assoc, List.append_assoc, Expr.piece?]
    refine foldlM_part (ihx hg) fun a ha => foldlM_part (ihy (hg.add a)) fun b _ =>
      foldlM_part (ihz ((hg.add a).add b)) fun c _ => ?_
    exact (hlast _ _).trans (visit_choice hg (Expr.lt_maxPending_of_piece? ha))

end Generator

/-- The program of an expression is that of its piece: no piece is ever missing on the stack, and
the last one is alone on it. -/
theorem Expr.toProgram?_eq (e : Expr) (ceiling : Nat) :
    e.toProgram? ceiling = e.piece? ceiling 0 0 >>= (·.fragment.toProgram?) := by
  have hg : Generator.Proper { ceiling } := ⟨rfl, rfl⟩
  rw [toProgram?, Generator.foldlM_visit e hg]
  change Except.map _ (e.piece? ceiling 0 0) >>= _ = _
  cases e.piece? ceiling 0 0 <;> rfl

end FormulaMachine
