import FormulaMachine.Proofs.Lexing.Identifiers
import FormulaMachine.Proofs.Lexing.Printing

/-!
Blanks between tokens make no other tokens. All of it follows from what happens at a seam: the
tokens before it and those behind it are found apart from one another.
-/
namespace FormulaMachine

/-- A text with more blanks: they are put in front of tokens and at the end. -/
inductive Spread : List Char → List Char → Prop
  | nil {gap : List Char} : (∀ c ∈ gap, Text.isBlank c) → Spread [] gap
  | cons {c : Char} {cs w gap rest : List Char} :
    (∀ c ∈ gap, Text.isBlank c) → c :: cs = w ++ (Token.first c cs).2 →
    Spread (Token.first c cs).2 rest → Spread (c :: cs) (gap ++ w ++ rest)

namespace Token

/-- The tokens of a text that are not blank. -/
def ink (cs : List Char) : List Token := (lex cs).filter (!·.isBlank)

variable {cs gap rest follow w : List Char} {c d : Char} {name : String}

theorem ink_cons (c : Char) (cs : List Char) : ink (c :: cs) =
    if Text.isBlank c then ink (first c cs).2 else (first c cs).1 :: ink (first c cs).2 := by
  rw [ink, lex]
  cases hb : Text.isBlank c with
  | true => exact List.filter_cons_of_neg (by simp [isBlank_first, hb])
  | false => exact List.filter_cons_of_pos (by simp [isBlank_first, hb])

theorem ink_append_of_isBlank (hg : ∀ c ∈ gap, Text.isBlank c) (cs : List Char) :
    ink (gap ++ cs) = ink cs := by
  have h := filter_lex_dropWhile (gap ++ cs)
  rw [List.dropWhile_append_of_pos hg, filter_lex_dropWhile] at h
  exact h.symm

theorem ink_of_isBlank (hg : ∀ c ∈ gap, Text.isBlank c) : ink gap = [] := by
  have h := ink_append_of_isBlank hg []
  rw [List.append_nil] at h
  exact h.trans (by simp [ink, lex])

/-- What stands in front of the rest is the word of the first token. -/
theorem word_of_eq (hw : c :: cs = w ++ (first c cs).2) :
    ∃ v, w = c :: v ∧ cs = v ++ (first c cs).2 ∧ (first c cs).1.Spells w := by
  obtain ⟨v, hv, hs⟩ := first_word c cs
  obtain rfl : w = c :: v :=
    List.append_cancel_right (hw.symm.trans (congrArg (c :: ·) hv : c :: cs = (c :: v) ++ _))
  exact ⟨v, rfl, hv, hs⟩

/-- What stands behind the first token can be put off by a seam anywhere. -/
theorem ink_cons_of_seam (h : AtSeam follow) (hw : c :: cs = w ++ (first c cs).2)
    (hr : rest <+: (first c cs).2) : ink (w ++ (rest ++ follow)) =
      if Text.isBlank c then ink (rest ++ follow) else (first c cs).1 :: ink (rest ++ follow) := by
  obtain ⟨v, rfl, hv, hs⟩ := word_of_eq hw
  cases hb : Text.isBlank c with
  | true => exact ink_append_of_isBlank (hs.isBlank ((isBlank_first c cs).trans hb)) _
  | false =>
    have hfirst := first_of_seam h ((isBlank_first c cs).trans hb) hv hr
    rw [List.cons_append, ink_cons, hb, hfirst]

/-- The end of a text is a seam as well. -/
theorem first_of_isPrefix (hw : cs = w ++ (first c cs).2) (hr : rest <+: (first c cs).2) :
    first c (w ++ rest) = ((first c cs).1, rest) := by
  cases hb : Text.isBlank c with
  | false =>
    have h : first c (w ++ (rest ++ [])) = ((first c cs).1, rest ++ []) :=
      first_of_seam nofun ((isBlank_first c cs).trans hb) hw hr
    rwa [List.append_nil] at h
  | true =>
    simp only [first, hb, if_true] at hw hr ⊢
    obtain rfl : w = cs.takeWhile Text.isBlank :=
      List.append_cancel_right (hw.symm.trans List.takeWhile_append_dropWhile.symm)
    have hhead : ∀ d ∈ (rest ++ []).head?, Text.isBlank d = false :=
      head_of_isPrefix hr (fun d hd => by
        have hn := List.head?_dropWhile_not Text.isBlank cs
        rwa [hd] at hn) nofun
    rw [List.append_nil] at hhead
    obtain ⟨ht, hd⟩ := span_append (fun d hd => List.all_eq_true.mp List.all_takeWhile d hd) hhead
    rw [ht, hd]

/-- The tokens on both sides of a seam have nothing to do with each other. -/
theorem ink_append (h : AtSeam follow) (cs : List Char) :
    ink (cs ++ follow) = ink cs ++ ink follow := by
  induction cs using lex.induct with
  | case1 => simp [ink, lex]
  | case2 c cs ih =>
    obtain ⟨w, -, hw, -⟩ := first_spells c cs
    have hseam := ink_cons_of_seam h hw List.prefix_rfl
    rw [← List.append_assoc, ← hw, ih] at hseam
    rw [hseam, ink_cons]
    split <;> rfl

theorem first_outline (hd : d = ':' ∨ d = ';') (cs : List Char) :
    first d cs = (unknown d, cs) := by
  rcases hd with rfl | rfl <;> cases cs <;> rfl

/-- Colons and semicolons part the tokens of a text. -/
theorem ink_outline (hd : d = ':' ∨ d = ';') (a b : List Char) :
    ink (a ++ d :: b) = ink a ++ unknown d :: ink b := by
  have hseam : AtSeam (d :: b) := by
    rintro _ ⟨⟩
    rcases hd with rfl | rfl <;> rfl
  have hb : Text.isBlank d = false := by rcases hd with rfl | rfl <;> rfl
  rw [ink_append hseam, ink_cons, first_outline hd, hb]
  rfl

theorem unknown_not_mem_ink (hd : d ∉ cs) : unknown d ∉ ink cs := fun hm =>
  hd ((spelling_lex cs).mem_of_unknown (List.mem_filter.mp hm).1).1

theorem isBlank_of_ink (h : ink cs = []) : ∀ c ∈ cs, Text.isBlank c := by
  induction cs using lex.induct with
  | case1 => exact List.forall_mem_nil _
  | case2 c cs ih =>
    obtain ⟨w, -, hw, hs⟩ := first_spells c cs
    rw [ink_cons] at h
    split at h
    · next hb =>
      rw [hw]
      exact List.forall_mem_append.mpr ⟨hs.isBlank ((isBlank_first c cs).trans hb), ih h⟩
    · cases h

theorem ink_trim (cs : List Char) : ink (Text.trim cs) = ink cs := by
  obtain ⟨after, hafter, ht⟩ := Text.eq_append_trim cs
  have hseam : AtSeam after := fun c hc =>
    isInner_of_isBlank (hafter c (List.mem_of_mem_head? hc))
  have hfront : ∀ c ∈ cs.takeWhile Text.isBlank, Text.isBlank c :=
    List.all_eq_true.mp List.all_takeWhile
  rw [List.append_assoc] at ht
  rw [ht, ink_append_of_isBlank hfront, ink_append hseam, ink_of_isBlank hafter, List.append_nil,
    ← ht]

/-- A text is a name between blanks if its only token is an identifier. -/
theorem ink_eq_identifier_iff : ink cs = [identifier name] ↔
    isName (Text.trim cs) ∧ name = String.ofList (Text.trim cs) := by
  rw [← ink_trim]
  constructor
  · intro h
    have hne : Text.trim cs ≠ [] := by
      intro hnil
      rw [hnil] at h
      simp [ink, lex] at h
    have ht := Text.isTrimmed_trim hne
    generalize Text.trim cs = ds at h ht ⊢
    obtain ⟨c, ds, rfl⟩ := List.exists_cons_of_ne_nil ht.1
    have hb : Text.isBlank c = false := ht.2.1 c rfl
    obtain ⟨w, -, hw, hs⟩ := first_spells c ds
    rw [ink_cons, hb] at h
    obtain ⟨hfirst, hrest⟩ := List.cons.inj h
    -- nothing but blanks can follow the name, and there are none at the end
    rw [hw] at ht ⊢
    rw [ht.eq_nil_of_blank_after (isBlank_of_ink hrest), List.append_nil,
      ← hs.text_eq ((isBlank_first c ds).trans hb), hfirst]
    exact ⟨isName_of_first hfirst, by simp [text]⟩
  · rintro ⟨hn, rfl⟩
    rw [← String.toList_ofList (l := Text.trim cs)] at hn
    have hl := lex_of_isName hn
    rw [String.toList_ofList] at hl
    rw [ink, hl]
    rfl

end Token

namespace Spread

variable {cs cs' : List Char}

/-- Up to the first blank that is new, the text is what it was. -/
theorem prefix_seam (h : Spread cs cs') :
    ∃ front follow, cs' = front ++ follow ∧ front <+: cs ∧ AtSeam follow := by
  induction h with
  | @nil gap hg =>
    exact ⟨[], gap, rfl, List.nil_prefix, fun c hc =>
      isInner_of_isBlank (hg c (List.mem_of_mem_head? hc))⟩
  | @cons c cs w gap rest hg hw _ ih =>
    cases gap with
    | nil =>
      obtain ⟨front, follow, rfl, hfront, hseam⟩ := ih
      refine ⟨w ++ front, follow, by simp, ?_, hseam⟩
      rw [hw]
      exact (List.prefix_append_right_inj w).mpr hfront
    | cons d gap =>
      refine ⟨[], _, rfl, List.nil_prefix, ?_⟩
      rintro _ ⟨⟩
      exact isInner_of_isBlank (hg d List.mem_cons_self)

theorem ink_eq (h : Spread cs cs') : Token.ink cs' = Token.ink cs := by
  induction h with
  | nil hg => rw [Token.ink_of_isBlank hg, Token.ink_of_isBlank (List.forall_mem_nil _)]
  | @cons c cs w gap rest hg hw hr ih =>
    obtain ⟨front, follow, hrest, hfront, hseam⟩ := hr.prefix_seam
    rw [List.append_assoc, Token.ink_append_of_isBlank hg, hrest,
      Token.ink_cons_of_seam hseam hw hfront, ← hrest, ih, Token.ink_cons]

end Spread
end FormulaMachine
