import FormulaMachine.Proofs.Generator

/-! What the code of an expression is made of, and why no program made from it is refused. -/
namespace FormulaMachine

/-- Whether an instruction puts an operand on the stack and takes none off. -/
def Opcode.isLoad : Opcode → Bool
  | .number | .pi | .euler | .var _ | .ref _ => true
  | _ => false

namespace Program

theorem targetsWithin_append (size address : Nat) (a b : List Opcode) :
    targetsWithin size address (a ++ b) =
      (targetsWithin size address a && targetsWithin size (address + a.length) b) := by
  induction a generalizing address with
  | nil => simp [targetsWithin]
  | cons op a ih =>
    simp only [List.cons_append, targetsWithin, ih, Bool.and_assoc, List.length_cons]
    rw [show address + 1 + a.length = address + (a.length + 1) by omega]

end Program

namespace Fragment

/-- There are as many numbers as constants, and no instruction leads beyond the end, wherever the
fragment is placed. -/
structure Sound (f : Fragment) : Prop where
  numbers : f.code.countP Opcode.isNumber = f.constants.length
  targets : ∀ size address, address + f.size ≤ size →
    Program.targetsWithin size address f.code = true

@[simp] theorem size_push (f : Fragment) (op : Opcode) : (f.push op).size = f.size + 1 := by
  simp [size, push]

@[simp] theorem append_code (f g : Fragment) : (f ++ g).code = f.code ++ g.code := rfl

@[simp] theorem size_append (f g : Fragment) : (f ++ g).size = f.size + g.size := by
  simp [size]

theorem sound_empty : empty.Sound := ⟨rfl, fun _ _ _ => rfl⟩

theorem Sound.append {f g : Fragment} (hf : f.Sound) (hg : g.Sound) : (f ++ g).Sound where
  numbers := by simp [hf.numbers, hg.numbers]
  targets size address h := by
    rw [size_append] at h
    rw [append_code, Program.targetsWithin_append, hf.targets size address (by omega),
      hg.targets size _ (by simp only [Fragment.size] at h ⊢; omega), Bool.and_self]

theorem Sound.push {f : Fragment} (hf : f.Sound) {op : Opcode} (hn : op.isNumber = false)
    (hs : op.skip? = none) : (f.push op).Sound where
  numbers := by simp [Fragment.push, hn, hf.numbers]
  targets size address h := by
    rw [size_push] at h
    simp [Fragment.push, Program.targetsWithin_append, Program.targetsWithin, hs,
      hf.targets size address (by omega)]

theorem Sound.pushNumber {f : Fragment} (hf : f.Sound) (x : Float) : (f.pushNumber x).Sound where
  numbers := by simp [Fragment.pushNumber, Opcode.isNumber, hf.numbers]
  targets size address h := by
    simp only [Fragment.size, Fragment.pushNumber, List.length_append, List.length_singleton] at h
    simp [Fragment.pushNumber, Program.targetsWithin_append, Program.targetsWithin, Opcode.skip?,
      hf.targets size address (by simp only [Fragment.size]; omega)]

theorem pushChoice_code (f yes no : Fragment) :
    (f.pushChoice yes no).code = f.code ++ .branch (yes.size + 1) :: yes.code ++
      .jump no.size :: no.code ++ [.endIf] := by
  simp [pushChoice, Fragment.push]

theorem Sound.pushChoice {f yes no : Fragment} (hf : f.Sound) (hy : yes.Sound) (hn : no.Sound) :
    (f.pushChoice yes no).Sound where
  numbers := by
    rw [pushChoice_code, pushChoice_constants]
    simp [Opcode.isNumber, hf.numbers, hy.numbers, hn.numbers]
  targets size address h := by
    simp only [Fragment.size, pushChoice_code, List.length_append, List.length_cons,
      List.length_nil] at h
    have hb : address + f.code.length + 1 + (yes.size + 1) ≤ size := by
      simp only [Fragment.size]
      omega
    have hj : address + f.code.length + 1 + yes.code.length + 1 + no.size ≤ size := by
      simp only [Fragment.size]
      omega
    have hy := hy.targets size (address + f.code.length + 1) (by simp only [Fragment.size]; omega)
    have hn := hn.targets size (address + f.code.length + 1 + yes.code.length + 1)
      (by simp only [Fragment.size]; omega)
    have hf := hf.targets size address (by simp only [Fragment.size]; omega)
    simp only [pushChoice_code, List.append_assoc, List.cons_append, Program.targetsWithin_append,
      Program.targetsWithin, Opcode.skip?, Option.all_some, Option.all_none, hf, hy, hn, hb, hj,
      decide_true, Bool.and_self]

theorem Sound.toProgram? {f : Fragment} (hf : f.Sound) :
    f.toProgram? = .ok { code := f.code, constants := f.constants } := by
  have ht := hf.targets f.code.length 0 (by simp [Fragment.size])
  simp [Fragment.toProgram?, Program.ofCode?, hf.numbers, ht]

end Fragment

theorem Except.ok_of_bind {ε α β : Type} {m : Except ε α} {f : α → Except ε β} {b : β}
    (h : (m >>= f) = .ok b) : ∃ a, m = .ok a ∧ f a = .ok b := by
  cases m with
  | error e => cases h
  | ok a => exact ⟨a, rfl, h⟩

theorem Except.error_of_bind {ε α β : Type} {m : Except ε α} {f : α → Except ε β} {e : ε}
    (h : (m >>= f) = .error e) : m = .error e ∨ ∃ a, m = .ok a ∧ f a = .error e := by
  cases m with
  | error e' =>
    cases h
    exact .inl rfl
  | ok a => exact .inr ⟨a, rfl, h⟩

theorem Except.exists_ok_of_isOk {ε α : Type} {m : Except ε α} (h : m.isOk = true) :
    ∃ a, m = .ok a := by
  cases m with
  | error e => cases h
  | ok a => exact ⟨a, rfl⟩

theorem Except.ok_of_toOption {ε α : Type} {m : Except ε α} {a : α} (h : m.toOption = some a) :
    m = .ok a := by
  cases m with
  | error e => cases h
  | ok b => exact congrArg _ (Option.some.inj h)

def Except.error? {ε α : Type} : Except ε α → Option ε
  | .ok _ => none
  | .error e => some e

theorem Except.error_of_error? {ε α : Type} {m : Except ε α} {e : ε}
    (h : Except.error? m = some e) : m = .error e := by
  cases m with
  | ok a => cases h
  | error e' => exact congrArg _ (Option.some.inj h)

theorem Piece.kind_eq_of_expect {p : Piece} {kind : Kind} {u : Unit} (h : p.expect kind = .ok u) :
    p.kind = kind := by
  by_cases hk : p.kind = kind
  · exact hk
  · simp [Piece.expect, hk] at h

namespace Expr

variable {column : Column} {ceiling pending used : Nat} {x y z : Expr} {p : Piece}

theorem piece?_operand {o : Operand} (h : (operand column o).piece? ceiling pending used = .ok p) :
    p = ⟨column, .number, o.fragment⟩ := by
  simp only [piece?] at h
  split at h
  · cases h
  · split at h
    · cases h
    · cases h; rfl

theorem piece?_negation (h : (negation column x).piece? ceiling pending used = .ok p) :
    ∃ a, x.piece? ceiling pending used = .ok a ∧ a.kind = .number ∧
      p = ⟨⟨column.start, a.column.stop⟩, .number, a.fragment.push .negate⟩ := by
  obtain ⟨a, ha, h⟩ := Except.ok_of_bind h
  obtain ⟨_, hk, h⟩ := Except.ok_of_bind h
  cases h
  exact ⟨a, ha, Piece.kind_eq_of_expect hk, rfl⟩

theorem piece?_call {f : UnaryFunction}
    (h : (call column f x).piece? ceiling pending used = .ok p) :
    ∃ a, x.piece? ceiling pending used = .ok a ∧ a.kind = .number ∧
      p = ⟨⟨column.start, a.column.stop⟩, .number, a.fragment.push (.call f)⟩ := by
  obtain ⟨a, ha, h⟩ := Except.ok_of_bind h
  obtain ⟨_, hk, h⟩ := Except.ok_of_bind h
  cases h
  exact ⟨a, ha, Piece.kind_eq_of_expect hk, rfl⟩

theorem piece?_binary {op : Operator}
    (h : (binary column op x y).piece? ceiling pending used = .ok p) :
    ∃ a b, x.piece? ceiling pending used = .ok a ∧
      y.piece? ceiling (pending + 1) (used + a.fragment.constants.length) = .ok b ∧
      a.kind = op.operandKind ∧ b.kind = op.operandKind ∧
      p = ⟨⟨a.column.start, b.column.stop⟩, op.resultKind,
        (a.fragment ++ b.fragment).push (.binary op)⟩ := by
  obtain ⟨a, ha, h⟩ := Except.ok_of_bind h
  obtain ⟨b, hb, h⟩ := Except.ok_of_bind h
  obtain ⟨_, hka, h⟩ := Except.ok_of_bind h
  obtain ⟨_, hkb, h⟩ := Except.ok_of_bind h
  cases h
  exact ⟨a, b, ha, hb, Piece.kind_eq_of_expect hka, Piece.kind_eq_of_expect hkb, rfl⟩

theorem piece?_call₂ {f : BinaryFunction}
    (h : (call₂ column f x y).piece? ceiling pending used = .ok p) :
    ∃ a b, x.piece? ceiling pending used = .ok a ∧
      y.piece? ceiling (pending + 1) (used + a.fragment.constants.length) = .ok b ∧
      a.kind = .number ∧ b.kind = .number ∧
      p = ⟨⟨column.start, b.column.stop⟩, .number, (a.fragment ++ b.fragment).push (.call₂ f)⟩ := by
  obtain ⟨a, ha, h⟩ := Except.ok_of_bind h
  obtain ⟨b, hb, h⟩ := Except.ok_of_bind h
  obtain ⟨_, hka, h⟩ := Except.ok_of_bind h
  obtain ⟨_, hkb, h⟩ := Except.ok_of_bind h
  cases h
  exact ⟨a, b, ha, hb, Piece.kind_eq_of_expect hka, Piece.kind_eq_of_expect hkb, rfl⟩

theorem piece?_choice (h : (choice column x y z).piece? ceiling pending used = .ok p) :
    ∃ a b c, x.piece? ceiling pending used = .ok a ∧
      y.piece? ceiling (pending + 1) (used + a.fragment.constants.length) = .ok b ∧
      z.piece? ceiling (pending + 2)
        (used + a.fragment.constants.length + b.fragment.constants.length) = .ok c ∧
      b.kind = c.kind ∧
      p = ⟨⟨column.start, c.column.stop⟩, b.kind,
        a.fragment.pushChoice b.fragment c.fragment⟩ := by
  obtain ⟨a, ha, h⟩ := Except.ok_of_bind h
  obtain ⟨b, hb, h⟩ := Except.ok_of_bind h
  obtain ⟨c, hc, h⟩ := Except.ok_of_bind h
  split at h
  · next hk =>
    cases h
    exact ⟨a, b, c, ha, hb, hc, hk, rfl⟩
  · cases h

theorem piece?_sound {e : Expr} (h : e.piece? ceiling pending used = .ok p) :
    p.fragment.Sound := by
  induction e generalizing pending used p with
  | operand column o =>
    rw [piece?_operand h]
    cases o with
    | literal x => exact Fragment.sound_empty.pushNumber x
    | pi | euler | var | ref => exact Fragment.sound_empty.push rfl rfl
  | negation column x ih =>
    obtain ⟨a, ha, -, rfl⟩ := piece?_negation h
    exact (ih ha).push rfl rfl
  | call column f x ih =>
    obtain ⟨a, ha, -, rfl⟩ := piece?_call h
    exact (ih ha).push rfl rfl
  | binary column op x y ihx ihy =>
    obtain ⟨a, b, ha, hb, -, -, rfl⟩ := piece?_binary h
    exact ((ihx ha).append (ihy hb)).push rfl rfl
  | call₂ column f x y ihx ihy =>
    obtain ⟨a, b, ha, hb, -, -, rfl⟩ := piece?_call₂ h
    exact ((ihx ha).append (ihy hb)).push rfl rfl
  | choice column x y z ihx ihy ihz =>
    obtain ⟨a, b, c, ha, hb, hc, -, rfl⟩ := piece?_choice h
    exact (ihx ha).pushChoice (ihy hb) (ihz hc)

/-- Only the pieces can be at fault: the program that they make is never refused. -/
theorem toProgram?_of_piece? {e : Expr} (h : e.piece? ceiling 0 0 = .ok p) :
    e.toProgram? ceiling = .ok { code := p.fragment.code, constants := p.fragment.constants } := by
  rw [toProgram?_eq, h]
  exact (piece?_sound h).toProgram?

theorem piece?_of_toProgram? {e : Expr} {q : Program} (h : e.toProgram? ceiling = .ok q) :
    ∃ p, e.piece? ceiling 0 0 = .ok p ∧
      q = { code := p.fragment.code, constants := p.fragment.constants } := by
  obtain ⟨p, hp, _⟩ := Except.ok_of_bind ((toProgram?_eq e ceiling).symm.trans h)
  exact ⟨p, hp, Except.ok.inj (h.symm.trans (toProgram?_of_piece? hp))⟩

end Expr
end FormulaMachine
