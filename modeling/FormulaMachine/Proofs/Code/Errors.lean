import FormulaMachine.Proofs.Code
import FormulaMachine.Proofs.Columns

/-! What is wrong with an expression stands in the column of one of its pieces. -/
namespace FormulaMachine

theorem Piece.blamed_expect {p : Piece} {kind : Kind} {length : Nat}
    (hc : p.column.start < p.column.stop) (hl : p.column.stop ≤ length) :
    Blamed length (fun _ => p.kind = kind) (p.expect kind) := by
  simp only [expect]
  split
  · next hk => exact hk
  · exact ⟨rfl, Nat.le_of_lt hc, hl, List.mem_cons_self⟩

namespace Expr

variable {e : Expr} {lo hi : Nat}

/-- A piece extends from the first to the last of its parts. -/
theorem blamed_piece? (ceiling pending used : Nat) (h : e.Within lo hi) :
    Blamed hi (fun p => lo ≤ p.column.start ∧ p.column.start < p.column.stop ∧ p.column.stop ≤ hi)
      (e.piece? ceiling pending used) := by
  induction e generalizing pending used lo hi with
  | operand c o =>
    obtain ⟨hl, hs, hh⟩ := h
    simp only [piece?]
    split
    · exact ⟨rfl, Nat.le_of_lt hs, hh, List.mem_cons_self⟩
    · split
      · exact ⟨by simp [Error.isCompileError, Column.isEmpty, hs], Nat.le_of_lt hs, hh,
          by simp [Error.details]⟩
      · exact ⟨hl, hs, hh⟩
  | negation c x ih | call c f x ih =>
    obtain ⟨hl, hs, hx⟩ := h
    apply blamed_bind (ih _ _ hx)
    intro a ha
    apply blamed_bind (Piece.blamed_expect ha.2.1 ha.2.2)
    intro _ _
    exact ⟨hl, by simp only; omega, ha.2.2⟩
  | binary c op x y ihx ihy =>
    obtain ⟨m, hx, hy⟩ := h
    have hm := hy.lt
    apply blamed_bind ((ihx _ _ hx).mono (by omega))
    intro a ha
    apply blamed_bind (ihy _ _ hy)
    intro b hb
    apply blamed_bind (Piece.blamed_expect ha.2.1 (by omega))
    intro _ _
    apply blamed_bind (Piece.blamed_expect hb.2.1 hb.2.2)
    intro _ _
    exact ⟨ha.1, by simp only; omega, hb.2.2⟩
  | call₂ c f x y ihx ihy =>
    obtain ⟨hl, hs, m, hx, hy⟩ := h
    have hm := hy.lt
    apply blamed_bind ((ihx _ _ hx).mono (by omega))
    intro a ha
    apply blamed_bind (ihy _ _ hy)
    intro b hb
    apply blamed_bind (Piece.blamed_expect ha.2.1 (by omega))
    intro _ _
    apply blamed_bind (Piece.blamed_expect hb.2.1 hb.2.2)
    intro _ _
    exact ⟨hl, by simp only; omega, hb.2.2⟩
  | choice c x y z ihx ihy ihz =>
    obtain ⟨hl, hs, m, n, hx, hy, hz⟩ := h
    have hm := hy.lt
    have hn := hz.lt
    apply blamed_bind ((ihx _ _ hx).mono (by omega))
    intro a ha
    apply blamed_bind ((ihy _ _ hy).mono (by omega))
    intro b hb
    apply blamed_bind (ihz _ _ hz)
    intro d hd
    split
    · exact ⟨hl, by simp only; omega, hd.2.2⟩
    · exact ⟨rfl, Nat.le_of_lt hd.2.1, hd.2.2, by simp [Error.details]⟩

/-- No program is refused once its pieces are made. -/
theorem blamed_toProgram? (ceiling : Nat) (h : e.Within lo hi) :
    Blamed hi (fun _ => True) (e.toProgram? ceiling) := by
  have hp := blamed_piece? ceiling 0 0 h
  cases hr : e.piece? ceiling 0 0 with
  | ok p =>
    rw [toProgram?_of_piece? hr]
    trivial
  | error error =>
    rw [hr] at hp
    rw [toProgram?_eq, hr]
    exact hp

end Expr
end FormulaMachine
