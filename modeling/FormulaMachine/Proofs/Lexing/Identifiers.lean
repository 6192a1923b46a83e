import FormulaMachine.Proofs.Lexing.Words
import FormulaMachine.Proofs.Splitting

/-! Names and identifiers are the same texts. -/
namespace FormulaMachine.Token

variable {c : Char} {cs : List Char} {name : String}

theorem not_isDigit_of_isNameStart (h : isNameStart c) : c.isDigit = false := by
  rcases Bool.or_eq_true_iff.mp h with h | h
  · have ha : 65 ≤ c.toNat := by
      rcases Bool.or_eq_true_iff.mp h with h | h
      · have hr : 65 ≤ c.toNat ∧ c.toNat ≤ 90 := of_decide_eq_true h
        exact hr.1
      · obtain ⟨hl, -⟩ := Bool.and_eq_true_iff.mp h
        have hl : 97 ≤ c.toNat := of_decide_eq_true hl
        omega
    cases hd : c.isDigit with
    | false => rfl
    | true =>
      simp only [Char.isDigit, Bool.and_eq_true, decide_eq_true_eq, UInt32.le_iff_toNat_le] at hd
      have hr : c.toNat ≤ 57 := hd.2
      omega
  · rw [eq_of_beq h]
    rfl

theorem not_startsWith_of_isNameStart (h : isNameStart c) :
    Literal.startsWith (c :: cs) = false := by
  have hc : c ≠ '.' := by
    rintro rfl
    cases h
  rw [Literal.startsWith_cons hc, not_isDigit_of_isNameStart h]

theorem lex_of_isName (h : isName name.toList) : lex name.toList = [identifier name] := by
  obtain ⟨cs, rfl⟩ : ∃ cs, name = String.ofList cs := ⟨_, String.ofList_toList.symm⟩
  rw [String.toList_ofList] at h ⊢
  cases cs with
  | nil => cases h
  | cons c cs =>
    obtain ⟨hc, hcs⟩ := Bool.and_eq_true_iff.mp h
    have hb := not_isBlank_of_isInner (isInner_of_isNameStart hc)
    obtain ⟨ht, hd⟩ := span_append (List.all_eq_true.mp hcs)
      (nofun : ∀ y ∈ [].head?, isNameChar y = false)
    rw [List.append_nil] at ht hd
    rw [lex, first_identifier hb (not_startsWith_of_isNameStart hc) hc, ht, hd, lex]

theorem isName_of_first (h : (first c cs).1 = identifier name) : isName name.toList := by
  have hcase : isNameStart c → isName (c :: cs.takeWhile isNameChar) := fun hn =>
    Bool.and_eq_true_iff.mpr ⟨hn, List.all_takeWhile⟩
  simp only [first] at h
  split at h
  · cases h
  split at h
  · cases h
  split at h
  · next hn =>
    obtain rfl := identifier.inj h
    rw [String.toList_ofList]
    exact hcase hn
  split at h
  · split at h <;> cases h
  · next t ht hc =>
    obtain rfl : t = identifier name := h
    simp only [ofChar?] at hc
    split at hc <;> simp at hc
  · cases h

theorem isName_of_mem_lex (h : identifier name ∈ lex cs) : isName name.toList := by
  induction cs using lex.induct with
  | case1 => simp [lex] at h
  | case2 c cs ih =>
    rw [lex] at h
    rcases List.mem_cons.mp h with h | h
    · exact isName_of_first h.symm
    · exact ih h

end FormulaMachine.Token
