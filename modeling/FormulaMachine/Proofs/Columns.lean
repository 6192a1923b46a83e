import FormulaMachine.Proofs.Grammar
import FormulaMachine.Proofs.Lexing

/-! Where tokens stand, and where the parts of an expression do. -/
namespace FormulaMachine

/-- The details of the errors that a source is to blame for. -/
def Error.details : List String :=
  ["", "TOO MANY ARGUMENTS", "UNEXPECTED COMMA", "ONE COMPARISON PER TERM",
    "EXPRESSION TOO COMPLEX", "BRANCHES DIFFER IN TYPE"]

/-- The source is to blame for an error, and the error stands in its first `length` characters. -/
structure Error.Blames (e : Error) (length : Nat) : Prop where
  isCompileError : e.isCompileError = true
  start_le : e.column.start ≤ e.column.stop
  stop_le : e.column.stop ≤ length
  detail_mem : e.detail ∈ details

theorem Error.Blames.mono {e : Error} {m n : Nat} (h : e.Blames m) (hmn : m ≤ n) : e.Blames n :=
  ⟨h.isCompileError, h.start_le, Nat.le_trans h.stop_le hmn, h.detail_mem⟩

/-- A good result, or an error that the source is to blame for. -/
def Blamed {α : Type} (length : Nat) (good : α → Prop) : Except Error α → Prop
  | .ok a => good a
  | .error e => e.Blames length

section
variable {α β : Type} {length : Nat} {good : α → Prop} {m : Except Error α}

theorem Blamed.mono {n : Nat} (h : Blamed length good m) (hn : length ≤ n) : Blamed n good m := by
  cases m with
  | ok a => exact h
  | error e => exact Error.Blames.mono h hn

theorem blamed_bind {f : α → Except Error β} {good' : β → Prop} (hm : Blamed length good m)
    (hf : ∀ a, good a → Blamed length good' (f a)) : Blamed length good' (m >>= f) := by
  cases m with
  | ok a => exact hf a hm
  | error e => exact hm

end

namespace Placed

/-- The tokens follow one another between two places, and none of them is empty. -/
def Ordered (lo hi : Nat) : List Placed → Prop
  | [] => lo ≤ hi
  | p :: ps =>
    lo ≤ p.column.start ∧ p.column.start < p.column.stop ∧ Ordered p.column.stop hi ps

variable {lo hi : Nat} {ps qs : List Placed} {p : Placed}

theorem ordered_cons {t : Token} {c : Column} : Ordered lo hi (⟨t, c⟩ :: ps) ↔
    lo ≤ c.start ∧ c.start < c.stop ∧ Ordered c.stop hi ps := Iff.rfl

theorem Ordered.le (h : Ordered lo hi ps) : lo ≤ hi := by
  induction ps generalizing lo with
  | nil => exact h
  | cons p ps ih =>
    have hs := ih h.2.2
    have hl := h.1
    have hp := h.2.1
    omega

theorem Ordered.append (h : Ordered lo hi (ps ++ qs)) :
    ∃ m, Ordered lo m ps ∧ Ordered m hi qs := by
  induction ps generalizing lo with
  | nil => exact ⟨lo, Nat.le_refl lo, h⟩
  | cons p ps ih =>
    obtain ⟨m, hps, hqs⟩ := ih h.2.2
    exact ⟨m, ⟨h.1, h.2.1, hps⟩, hqs⟩

theorem Ordered.of_le {lo' : Nat} (h : Ordered lo hi ps) (hl : lo' ≤ lo) : Ordered lo' hi ps := by
  cases ps with
  | nil => exact Nat.le_trans hl h
  | cons p ps => exact ⟨Nat.le_trans hl h.1, h.2⟩

theorem Ordered.of_mem (h : Ordered lo hi ps) (hp : p ∈ ps) :
    lo ≤ p.column.start ∧ p.column.start < p.column.stop ∧ p.column.stop ≤ hi := by
  induction ps generalizing lo with
  | nil => cases hp
  | cons q ps ih =>
    rcases List.mem_cons.mp hp with rfl | hp
    · exact ⟨h.1, h.2.1, h.2.2.le⟩
    · obtain ⟨hl, hs, hh⟩ := ih h.2.2 hp
      have hq := h.1
      have hq' := h.2.1
      exact ⟨by omega, hs, hh⟩

theorem ordered_all {ts : List Token} {cs : List Char} (h : Token.Spelling ts cs) (offset : Nat) :
    Ordered offset (offset + cs.length) (all offset ts) := by
  induction h generalizing offset with
  | nil => exact Nat.le_refl _
  | @cons t ts w cs hw hs _ ih =>
    have hl := List.length_pos_iff.mpr hw
    have ih := ih (offset + t.width)
    rw [hs.width_eq] at ih
    rw [List.length_append, ← Nat.add_assoc]
    simp only [all, hs.width_eq]
    split
    · exact ih.of_le (Nat.le_add_right _ _)
    · exact ⟨Nat.le_refl _, Nat.lt_add_of_pos_right hl, ih⟩

end Placed

theorem Segment.ordered (s : Segment) :
    Placed.Ordered s.offset (s.offset + s.text.length) s.tokens := by
  rw [← String.length_toList]
  exact Placed.ordered_all (Token.spelling_lex _) _

namespace Expr

/-- The parts of an expression stand between two places in the order in which they are written. The
column of a binary operator is of no account, its operands stand on both sides of it. -/
def Within (lo hi : Nat) : Expr → Prop
  | operand c _ => lo ≤ c.start ∧ c.start < c.stop ∧ c.stop ≤ hi
  | call c _ x | negation c x => lo ≤ c.start ∧ c.start < c.stop ∧ x.Within c.stop hi
  | call₂ c _ x y =>
    lo ≤ c.start ∧ c.start < c.stop ∧ ∃ m, x.Within c.stop m ∧ y.Within m hi
  | choice c x y z =>
    lo ≤ c.start ∧ c.start < c.stop ∧ ∃ m n, x.Within c.stop m ∧ y.Within m n ∧ z.Within n hi
  | binary _ _ x y => ∃ m, x.Within lo m ∧ y.Within m hi

variable {lo hi lo' hi' : Nat} {e : Expr}

theorem Within.mono (h : e.Within lo hi) (hl : lo' ≤ lo) (hh : hi ≤ hi') : e.Within lo' hi' := by
  induction e generalizing lo hi lo' hi' with
  | operand c o => exact ⟨Nat.le_trans hl h.1, h.2.1, Nat.le_trans h.2.2 hh⟩
  | call c f x ih | negation c x ih =>
    exact ⟨Nat.le_trans hl h.1, h.2.1, ih h.2.2 (Nat.le_refl _) hh⟩
  | call₂ c f x y _ ihy =>
    obtain ⟨hc, hs, m, hx, hy⟩ := h
    exact ⟨Nat.le_trans hl hc, hs, m, hx, ihy hy (Nat.le_refl _) hh⟩
  | choice c x y z _ _ ihz =>
    obtain ⟨hc, hs, m, n, hx, hy, hz⟩ := h
    exact ⟨Nat.le_trans hl hc, hs, m, n, hx, hy, ihz hz (Nat.le_refl _) hh⟩
  | binary c op x y ihx ihy =>
    obtain ⟨m, hx, hy⟩ := h
    exact ⟨m, ihx hx hl (Nat.le_refl _), ihy hy (Nat.le_refl _) hh⟩

theorem Within.lt (h : e.Within lo hi) : lo < hi := by
  induction e generalizing lo hi with
  | operand c o => exact Nat.lt_of_le_of_lt h.1 (Nat.lt_of_lt_of_le h.2.1 h.2.2)
  | call c f x ih | negation c x ih =>
    have hx := ih h.2.2
    exact Nat.lt_trans (Nat.lt_of_le_of_lt h.1 h.2.1) hx
  | call₂ c f x y ihx ihy =>
    obtain ⟨hc, hs, m, hx, hy⟩ := h
    have hx := ihx hx
    have hy := ihy hy
    omega
  | choice c x y z ihx ihy ihz =>
    obtain ⟨hc, hs, m, n, hx, hy, hz⟩ := h
    have hx := ihx hx
    have hy := ihy hy
    have hz := ihz hz
    omega
  | binary c op x y ihx ihy =>
    obtain ⟨m, hx, hy⟩ := h
    exact Nat.lt_trans (ihx hx) (ihy hy)

end Expr

open Placed in
theorem Derives.within {room : Nat} {k : Rank} {xs : List Placed} {x : Phrase} {e : Expr}
    {names names' : Names} {lo hi : Nat} (h : Derives room k xs x) (hr : Resolves names x e names')
    (ho : Ordered lo hi xs) : e.Within lo hi := by
  induction h generalizing names e names' lo hi with
  | lone _ _ ih => exact ih hr ho
  | join _ _ _ _ ihx ihy | compare _ _ _ ihx ihy | exponent _ _ ihx ihy =>
    obtain ⟨m, hox, ho⟩ := ho.append
    obtain ⟨hc, hs, hoy⟩ := ordered_cons.mp ho
    cases hr with
    | binary hx hy => exact ⟨m, ihx hx hox, (ihy hy hoy).mono (by omega) (Nat.le_refl _)⟩
  | signed _ _ _ ih =>
    obtain ⟨m, hos, hox⟩ := ho.append
    exact (ih hr hox).mono hos.le (Nat.le_refl _)
  | negated _ _ hm _ ih =>
    obtain ⟨m, hos, hox⟩ := ho.append
    obtain ⟨hl, hs, hh⟩ := hos.of_mem (List.mem_of_find?_eq_some hm)
    cases hr with
    | negation hr => exact ⟨hl, hs, (ih hr hox).mono hh (Nat.le_refl _)⟩
  | literal | pi | euler | name =>
    cases hr
    exact ho
  | parenthesized _ ih =>
    obtain ⟨hl, hs, ho⟩ := ordered_cons.mp ho
    obtain ⟨m, hox, ho⟩ := ho.append
    exact (ih hr hox).mono (by omega) ho.le
  | call _ ih =>
    simp only [List.cons_append, ordered_cons] at ho
    obtain ⟨hl, hs, hp, hps, ho⟩ := ho
    obtain ⟨m, hox, ho⟩ := ho.append
    cases hr with
    | call hr => exact ⟨hl, hs, (ih hr hox).mono (by omega) ho.le⟩
  | call₂ _ _ ihx ihy =>
    simp only [List.cons_append, List.append_assoc, ordered_cons] at ho
    obtain ⟨hl, hs, hp, hps, ho⟩ := ho
    obtain ⟨m, hox, ho⟩ := ho.append
    obtain ⟨hc, hcs, ho⟩ := ordered_cons.mp ho
    obtain ⟨n, hoy, ho⟩ := ho.append
    cases hr with
    | call₂ hx hy =>
      exact ⟨hl, hs, m, (ihx hx hox).mono (by omega) (Nat.le_refl _),
        (ihy hy hoy).mono (by omega) ho.le⟩
  | choice _ _ _ ihx ihy ihz =>
    simp only [List.cons_append, List.append_assoc, ordered_cons] at ho
    obtain ⟨hl, hs, hp, hps, ho⟩ := ho
    obtain ⟨m, hox, ho⟩ := ho.append
    obtain ⟨hc, hcs, ho⟩ := ordered_cons.mp ho
    obtain ⟨n, hoy, ho⟩ := ho.append
    obtain ⟨hd, hds, ho⟩ := ordered_cons.mp ho
    obtain ⟨r, hoz, ho⟩ := ho.append
    cases hr with
    | choice hx hy hz =>
      exact ⟨hl, hs, m, n, (ihx hx hox).mono (by omega) (Nat.le_refl _),
        (ihy hy hoy).mono (by omega) (Nat.le_refl _), (ihz hz hoz).mono (by omega) ho.le⟩

end FormulaMachine
