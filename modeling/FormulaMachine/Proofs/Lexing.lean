import FormulaMachine.Token.Lexer

/-!
Each token is spelled by the characters that it takes from a text. Colons and semicolons are left to
tokens of their own.
-/
namespace FormulaMachine

/-- Neither a blank nor one of the characters that outline a source. -/
def isInner (c : Char) : Bool := !Text.isBlank c && c != ':' && c != ';'

theorem not_isBlank_of_isInner {c : Char} (h : isInner c) : Text.isBlank c = false := by
  simp only [isInner, Bool.and_eq_true, Bool.not_eq_true'] at h
  exact h.1.1

theorem isInner_of_range {c : Char} (h : 0x21 ≤ c.toNat) (h' : c.toNat ≤ 0x7E)
    (hc : c.toNat ≠ 0x3A) (hs : c.toNat ≠ 0x3B) : isInner c := by
  have hcolon : c ≠ ':' := by
    rintro rfl
    exact hc rfl
  have hsemi : c ≠ ';' := by
    rintro rfl
    exact hs rfl
  have hb : Text.isBlank c = false := by
    simp only [Text.isBlank, Bool.or_eq_false_iff, Bool.and_eq_false_iff, beq_eq_false_iff_ne,
      decide_eq_false_iff_not]
    omega
  simp [isInner, hb, hcolon, hsemi]

theorem isInner_of_isDigit {c : Char} (h : c.isDigit) : isInner c := by
  simp only [Char.isDigit, Bool.and_eq_true, decide_eq_true_eq, UInt32.le_iff_toNat_le] at h
  have hl : 48 ≤ c.toNat := h.1
  have hr : c.toNat ≤ 57 := h.2
  exact isInner_of_range (by omega) (by omega) (by omega) (by omega)

theorem isInner_of_isNameStart {c : Char} (h : isNameStart c) : isInner c := by
  rcases Bool.or_eq_true_iff.mp h with h | h
  · rcases Bool.or_eq_true_iff.mp h with h | h
    · have hr : 65 ≤ c.toNat ∧ c.toNat ≤ 90 := of_decide_eq_true h
      exact isInner_of_range (by omega) (by omega) (by omega) (by omega)
    · obtain ⟨hl, hr⟩ := Bool.and_eq_true_iff.mp h
      have hl : 97 ≤ c.toNat := of_decide_eq_true hl
      have hr : c.toNat ≤ 122 := of_decide_eq_true hr
      exact isInner_of_range (by omega) (by omega) (by omega) (by omega)
  · rw [eq_of_beq h]
    rfl

theorem isInner_of_isNameChar {c : Char} (h : isNameChar c) : isInner c := by
  rcases Bool.or_eq_true _ _ ▸ h with h | h
  · exact isInner_of_isNameStart h
  · exact isInner_of_isDigit h

namespace Literal

theorem take_digitsLength (cs : List Char) :
    cs.take (digitsLength cs) = cs.takeWhile Char.isDigit :=
  (List.prefix_iff_eq_take.mp (List.takeWhile_prefix _)).symm

theorem isInner_of_mem_digits {cs : List Char} {c : Char} (h : c ∈ cs.take (digitsLength cs)) :
    isInner c := by
  rw [take_digitsLength] at h
  exact isInner_of_isDigit (List.all_eq_true.mp List.all_takeWhile c h)

theorem isInner_of_mem_fraction {cs : List Char} {c : Char}
    (h : c ∈ cs.take (fractionLength cs)) : isInner c := by
  simp only [fractionLength] at h
  split at h
  · rw [List.take_succ_cons] at h
    rcases List.mem_cons.mp h with rfl | h
    · rfl
    · exact isInner_of_mem_digits h
  · simp at h

theorem isInner_of_mem_sign {cs : List Char} {c : Char} (h : c ∈ cs.take (signLength cs)) :
    isInner c := by
  simp only [signLength] at h
  split at h
  · rw [List.mem_singleton.mp h]
    rfl
  · rw [List.mem_singleton.mp h]
    rfl
  · simp at h

theorem isInner_of_mem_exponent {cs : List Char} {c : Char}
    (h : c ∈ cs.take (exponentLength cs)) : isInner c := by
  cases cs with
  | nil => simp at h
  | cons e cs =>
    simp only [exponentLength] at h
    split at h
    · next he =>
      rw [Nat.add_assoc, Nat.add_comm 1, List.take_succ_cons, List.take_add] at h
      rcases List.mem_cons.mp h with rfl | h
      · simp only [Bool.and_eq_true, Bool.or_eq_true, beq_iff_eq] at he
        rcases he.1 with rfl | rfl <;> rfl
      · rcases List.mem_append.mp h with h | h
        · exact isInner_of_mem_sign h
        · exact isInner_of_mem_digits h
    · simp at h

theorem isInner_of_mem {cs : List Char} {c : Char} (h : c ∈ cs.take (length cs)) : isInner c := by
  simp only [length, List.take_add] at h
  rcases List.mem_append.mp h with h | h
  · rcases List.mem_append.mp h with h | h
    · exact isInner_of_mem_digits h
    · exact isInner_of_mem_fraction h
  · exact isInner_of_mem_exponent h

theorem isInner_of_startsWith {c : Char} {cs : List Char} (h : startsWith (c :: cs)) :
    isInner c := by
  simp only [startsWith] at h
  split at h
  · next hc =>
    cases hc
    rfl
  · next hc =>
    cases hc
    exact isInner_of_isDigit h
  · cases h

end Literal

namespace Token

/-- The characters that a token stands for in a text. -/
def Spells : Token → List Char → Prop
  | blank count, cs => cs.length = count ∧ ∀ c ∈ cs, Text.isBlank c
  | unknown d, cs => cs = [d] ∧ Text.isBlank d = false
  | t, cs => t.text.toList = cs ∧ ∀ c ∈ cs, isInner c

theorem spells_operator (op : Operator) : (operator op).Spells op.text.toList := by
  refine ⟨rfl, List.all_eq_true.mp ?_⟩
  cases op <;> rfl

theorem text_of_ofChar? {c : Char} {op : Operator} (h : Operator.ofChar? c = some op) :
    op.text.toList = [c] := by
  simp only [Operator.ofChar?] at h
  split at h <;> cases h <;> rfl

theorem text_of_extend? {c : Char} {op longer : Operator} (h : op.extend? c = some longer) :
    longer.text.toList = op.text.toList ++ [c] := by
  simp only [Operator.extend?] at h
  split at h <;> cases h <;> rfl

theorem operator_of_ofChar? {c : Char} {op : Operator} (h : ofChar? c = some (operator op)) :
    Operator.ofChar? c = some op := by
  simp only [ofChar?] at h
  split at h <;> simp_all

theorem spells_of_ofChar? {c : Char} {t : Token} (h : ofChar? c = some t) : t.Spells [c] := by
  simp only [ofChar?] at h
  split at h
  · cases h
    exact ⟨rfl, List.all_eq_true.mp rfl⟩
  · cases h
    exact ⟨rfl, List.all_eq_true.mp rfl⟩
  · cases h
    exact ⟨rfl, List.all_eq_true.mp rfl⟩
  · obtain ⟨op, hop, rfl⟩ := Option.map_eq_some_iff.mp h
    have hs := spells_operator op
    rwa [text_of_ofChar? hop] at hs

theorem spells_literal {c : Char} {cs : List Char} (h : Literal.startsWith (c :: cs)) :
    (literal (String.ofList (c :: cs.take (Literal.length (c :: cs) - 1)))).Spells
      (c :: cs.take (Literal.length (c :: cs) - 1)) := by
  refine ⟨String.toList_ofList, fun d hd => ?_⟩
  rcases List.mem_cons.mp hd with rfl | hd
  · exact Literal.isInner_of_startsWith h
  · have hm : d ∈ (c :: cs).take (Literal.length (c :: cs)) := by
      cases hl : Literal.length (c :: cs) with
      | zero => simp [hl] at hd
      | succ n =>
        rw [hl] at hd
        exact List.mem_cons_of_mem _ hd
    exact Literal.isInner_of_mem hm

/-- The first token of a text takes one character or more. -/
theorem first_spells (c : Char) (cs : List Char) :
    ∃ w, w ≠ [] ∧ c :: cs = w ++ (first c cs).2 ∧ (first c cs).1.Spells w := by
  simp only [first]
  split
  · next hb =>
    refine ⟨c :: cs.takeWhile Text.isBlank, by simp, by simp, rfl, fun d hd => ?_⟩
    rcases List.mem_cons.mp hd with rfl | hd
    · exact hb
    · exact List.all_eq_true.mp List.all_takeWhile d hd
  · next hb =>
    split
    · next hl => exact ⟨_, by simp, by simp, spells_literal hl⟩
    · split
      · next hn =>
        refine ⟨c :: cs.takeWhile isNameChar, by simp, by simp, String.toList_ofList,
          fun d hd => ?_⟩
        rcases List.mem_cons.mp hd with rfl | hd
        · exact isInner_of_isNameStart hn
        · exact isInner_of_isNameChar (List.all_eq_true.mp List.all_takeWhile d hd)
      · split
        · next op hc =>
          have hop := text_of_ofChar? (operator_of_ofChar? hc)
          split
          · next longer hl =>
            obtain ⟨d, hd, hl⟩ := Option.bind_eq_some_iff.mp hl
            obtain ⟨ds, rfl⟩ := List.head?_eq_some_iff.mp hd
            have hs := spells_operator longer
            rw [text_of_extend? hl, hop] at hs
            exact ⟨[c, d], by simp, rfl, hs⟩
          · have hs := spells_operator op
            rw [hop] at hs
            exact ⟨[c], by simp, rfl, hs⟩
        · next t ht hc => exact ⟨[c], by simp, rfl, spells_of_ofChar? hc⟩
        · exact ⟨[c], by simp, rfl, rfl, by simpa using hb⟩

/-- A text is what its tokens stand for, one after another. -/
inductive Spelling : List Token → List Char → Prop
  | nil : Spelling [] []
  | cons {t : Token} {ts : List Token} {w cs : List Char} :
    w ≠ [] → t.Spells w → Spelling ts cs → Spelling (t :: ts) (w ++ cs)

theorem spelling_lex (cs : List Char) : Spelling (lex cs) cs := by
  induction cs using lex.induct with
  | case1 =>
    rw [lex]
    exact .nil
  | case2 c cs ih =>
    obtain ⟨w, hw, hc, hs⟩ := first_spells c cs
    rw [lex, hc]
    exact .cons hw hs ih

theorem Spells.width_eq {t : Token} {w : List Char} (h : t.Spells w) : t.width = w.length := by
  cases t with
  | blank count =>
    rw [← h.1]
    simp [width, text]
  | unknown d =>
    rw [h.1]
    simp [width, text]
  | literal | identifier | operator | leftParen | rightParen | comma =>
    rw [← h.1]
    exact (String.length_toList).symm

/-- A colon or a semicolon is a token by itself wherever it stands. -/
theorem Spelling.unknown_mem {ts : List Token} {cs : List Char} (h : Spelling ts cs) {d : Char}
    (hd : d = ':' ∨ d = ';') (hm : d ∈ cs) : unknown d ∈ ts := by
  have hb : Text.isBlank d = false := by rcases hd with rfl | rfl <;> rfl
  have hi : isInner d = false := by rcases hd with rfl | rfl <;> rfl
  induction h with
  | nil => cases hm
  | @cons t ts w cs hw hs _ ih =>
    rcases List.mem_append.mp hm with hm | hm
    · cases t with
      | blank => simp [hs.2 d hm] at hb
      | unknown e =>
        rw [hs.1] at hm
        rw [List.mem_singleton.mp hm]
        exact List.mem_cons_self
      | literal | identifier | operator | leftParen | rightParen | comma =>
        simp [hs.2 d hm] at hi
    · exact List.mem_cons_of_mem _ (ih hm)

end Token
end FormulaMachine
