import FormulaMachine.Proofs.Lexing.Words

/-!
Literals as they are written. A literal token is the longest literal that what is left of the text
begins with.
-/
namespace FormulaMachine

namespace Literal

/-- One digit or more. -/
def IsDigits (cs : List Char) : Prop := cs ≠ [] ∧ ∀ c ∈ cs, c.isDigit

/-- Digits with or without a point. Behind a point there may be none if there are some before. -/
inductive IsMantissa : List Char → Prop
  | whole {digits : List Char} : IsDigits digits → IsMantissa digits
  | pointed {digits fraction : List Char} : IsDigits digits → (∀ c ∈ fraction, c.isDigit) →
    IsMantissa (digits ++ '.' :: fraction)
  | fraction {digits : List Char} : IsDigits digits → IsMantissa ('.' :: digits)

inductive IsExponent : List Char → Prop
  | intro {e : Char} {sign digits : List Char} : e = 'e' ∨ e = 'E' →
    sign = [] ∨ sign = ['+'] ∨ sign = ['-'] → IsDigits digits → IsExponent (e :: sign ++ digits)

/-- A mantissa that may have an exponent behind it. -/
inductive IsLiteral : List Char → Prop
  | plain {mantissa : List Char} : IsMantissa mantissa → IsLiteral mantissa
  | scaled {mantissa exponent : List Char} : IsMantissa mantissa → IsExponent exponent →
    IsLiteral (mantissa ++ exponent)

/-- The longest of the literals that a text begins with. -/
structure IsLongest (literal cs : List Char) : Prop where
  isLiteral : IsLiteral literal
  isPrefix : literal <+: cs
  length_le : ∀ other, IsLiteral other → other <+: cs → other.length ≤ literal.length

variable {c : Char} {cs front rest digits : List Char}

/-! ### How far the parts of a literal reach -/

/-- How many characters of a text belong to a mantissa at its front. -/
def mantissaLength (cs : List Char) : Nat :=
  digitsLength cs + fractionLength (cs.drop (digitsLength cs))

theorem length_eq (cs : List Char) :
    length cs = mantissaLength cs + exponentLength (cs.drop (mantissaLength cs)) := rfl

theorem digitsLength_append (h : ∀ c ∈ front, c.isDigit) (rest : List Char) :
    digitsLength (front ++ rest) = front.length + digitsLength rest := by
  rw [digitsLength, List.takeWhile_append_of_pos h, List.length_append, digitsLength]

theorem digitsLength_of_head (h : ∀ c ∈ cs.head?, c.isDigit = false) : digitsLength cs = 0 := by
  cases cs with
  | nil => rfl
  | cons c cs =>
    have hc : ¬ c.isDigit = true := by simp [h c rfl]
    rw [digitsLength, List.takeWhile_cons_of_neg hc]
    rfl

theorem isDigits_take (h : digitsLength cs ≠ 0) : IsDigits (cs.take (digitsLength cs)) := by
  rw [take_digitsLength]
  refine ⟨?_, List.all_eq_true.mp List.all_takeWhile⟩
  intro hnil
  exact h (congrArg List.length hnil)

theorem fractionLength_of_head (h : ∀ c ∈ cs.head?, c ≠ '.') : fractionLength cs = 0 := by
  cases cs with
  | nil => rfl
  | cons c cs =>
    have hc : c ≠ '.' := h c rfl
    simp [fractionLength, hc]

theorem not_isDigit_of_isExponentMark (h : c = 'e' ∨ c = 'E') : c.isDigit = false ∧ c ≠ '.' := by
  rcases h with rfl | rfl
  · exact ⟨rfl, by decide⟩
  · exact ⟨rfl, by decide⟩

theorem ne_point_of_isDigit (h : c.isDigit) : c ≠ '.' := by
  rintro rfl
  cases h

theorem ne_sign_of_isDigit (h : c.isDigit) : c ≠ '+' ∧ c ≠ '-' := by
  constructor
  · rintro rfl
    cases h
  · rintro rfl
    cases h

theorem IsDigits.exists_cons (h : IsDigits digits) :
    ∃ c cs, digits = c :: cs ∧ c.isDigit ∧ ∀ d ∈ cs, d.isDigit := by
  obtain ⟨hne, hall⟩ := h
  obtain ⟨c, cs, rfl⟩ := List.exists_cons_of_ne_nil hne
  exact ⟨c, cs, rfl, hall c List.mem_cons_self, fun d hd => hall d (List.mem_cons_of_mem _ hd)⟩

/-! ### What is taken is a literal -/

theorem isMantissa_take (h : startsWith cs) : IsMantissa (cs.take (mantissaLength cs)) := by
  rw [mantissaLength, List.take_add]
  by_cases hzero : digitsLength cs = 0
  · -- without digits in front there is a point, and a digit behind it
    rw [hzero, List.take_zero, List.drop_zero, List.nil_append]
    cases cs with
    | nil => cases h
    | cons c cs =>
      by_cases hc : c = '.'
      · subst hc
        cases cs with
        | nil => cases h
        | cons d cs =>
          have hd : d.isDigit = true := h
          have hlength : digitsLength (d :: cs) ≠ 0 := by
            simp [digitsLength, List.takeWhile_cons_of_pos hd]
          exact .fraction (isDigits_take hlength)
      · rw [startsWith_cons hc] at h
        simp [digitsLength, List.takeWhile_cons_of_pos h] at hzero
  · have hdigits := isDigits_take hzero
    generalize cs.drop (digitsLength cs) = rest
    by_cases hpoint : ∃ fraction, rest = '.' :: fraction
    · obtain ⟨fraction, rfl⟩ := hpoint
      have htake : ('.' :: fraction).take (fractionLength ('.' :: fraction)) =
          '.' :: fraction.take (digitsLength fraction) := rfl
      rw [htake]
      refine .pointed hdigits ?_
      rw [take_digitsLength]
      exact List.all_eq_true.mp List.all_takeWhile
    · have hnone : fractionLength rest = 0 := by
        refine fractionLength_of_head ?_
        rintro c hc rfl
        exact hpoint ⟨_, (List.head?_eq_some_iff.mp hc).choose_spec⟩
      rw [hnone, List.take_zero, List.append_nil]
      exact .whole hdigits

theorem take_signLength (cs : List Char) : cs.take (signLength cs) = [] ∨
    cs.take (signLength cs) = ['+'] ∨ cs.take (signLength cs) = ['-'] := by
  unfold signLength
  split
  · exact .inr (.inl rfl)
  · exact .inr (.inr rfl)
  · exact .inl rfl

theorem isExponent_take (h : exponentLength cs ≠ 0) : IsExponent (cs.take (exponentLength cs)) := by
  cases cs with
  | nil => exact absurd rfl h
  | cons c cs =>
    simp only [exponentLength] at h ⊢
    split at h
    · next hc =>
      obtain ⟨hmark, hdigits⟩ := Bool.and_eq_true_iff.mp hc
      have hmark : c = 'e' ∨ c = 'E' := by simpa using hmark
      have hdigits : digitsLength (cs.drop (signLength cs)) ≠ 0 := by simpa using hdigits
      rw [if_pos hc, Nat.add_assoc, Nat.add_comm 1, List.take_succ_cons, List.take_add]
      exact .intro hmark (take_signLength cs) (isDigits_take hdigits)
    · exact absurd rfl h

/-- A text that begins like a literal begins with one. -/
theorem isLiteral_take (h : startsWith cs) : IsLiteral (cs.take (length cs)) := by
  rw [length_eq, List.take_add]
  have hmantissa := isMantissa_take h
  by_cases hzero : exponentLength (cs.drop (mantissaLength cs)) = 0
  · rw [hzero, List.take_zero, List.append_nil]
    exact .plain hmantissa
  · exact .scaled hmantissa (isExponent_take hzero)

/-! ### No literal reaches further -/

/-- Behind a mantissa only digits go on with it, and a point if it has none yet. -/
theorem mantissaLength_append (h : IsMantissa front) (rest : List Char) :
    mantissaLength (front ++ rest) = front.length + mantissaLength rest ∨
      mantissaLength (front ++ rest) = front.length + digitsLength rest := by
  cases h with
  | whole hd =>
    left
    rw [mantissaLength, digitsLength_append hd.2, List.drop_length_add_append, mantissaLength,
      Nat.add_assoc]
  | @pointed digits fraction hd hf =>
    right
    have hpoint : digitsLength ('.' :: (fraction ++ rest)) = 0 := rfl
    have hfraction : fractionLength ('.' :: (fraction ++ rest)) =
        digitsLength (fraction ++ rest) + 1 := rfl
    rw [mantissaLength, List.append_assoc, List.cons_append, digitsLength_append hd.2, hpoint,
      Nat.add_zero, List.drop_left, hfraction, digitsLength_append hf, List.length_append,
      List.length_cons]
    omega
  | @fraction digits hd =>
    right
    have hfraction : mantissaLength ('.' :: (digits ++ rest)) =
        0 + (digitsLength (digits ++ rest) + 1) := rfl
    rw [List.cons_append, hfraction, digitsLength_append hd.2, List.length_cons]
    omega

/-- A mantissa ends where neither a digit nor a point follows. -/
theorem mantissaLength_exact (h : IsMantissa front)
    (hrest : ∀ c ∈ rest.head?, c.isDigit = false ∧ c ≠ '.') :
    mantissaLength (front ++ rest) = front.length := by
  have hdigits : digitsLength rest = 0 := digitsLength_of_head fun c hc => (hrest c hc).1
  have hfraction : fractionLength rest = 0 := fractionLength_of_head fun c hc => (hrest c hc).2
  have hmantissa : mantissaLength rest = 0 := by
    rw [mantissaLength, hdigits, List.drop_zero, hfraction]
  rcases mantissaLength_append h rest with hl | hl
  · rw [hl, hmantissa, Nat.add_zero]
  · rw [hl, hdigits, Nat.add_zero]

/-- No mantissa goes on with an exponent. -/
theorem IsExponent.head_not {exponent : List Char} (h : IsExponent exponent) (rest : List Char) :
    ∀ c ∈ (exponent ++ rest).head?, c.isDigit = false ∧ c ≠ '.' := by
  cases h with
  | intro hmark =>
    rintro c ⟨⟩
    exact not_isDigit_of_isExponentMark hmark

theorem signLength_append {sign : List Char} (hsign : sign = [] ∨ sign = ['+'] ∨ sign = ['-'])
    (hd : IsDigits digits) (rest : List Char) :
    signLength (sign ++ (digits ++ rest)) = sign.length := by
  obtain ⟨d, ds, rfl, hd, -⟩ := hd.exists_cons
  rcases hsign with rfl | rfl | rfl
  · obtain ⟨hplus, hminus⟩ := ne_sign_of_isDigit hd
    simp [signLength, hplus, hminus]
  · rfl
  · rfl

theorem length_le_exponentLength {exponent : List Char} (h : IsExponent exponent)
    (rest : List Char) : exponent.length ≤ exponentLength (exponent ++ rest) := by
  cases h with
  | @intro e sign digits he hsign hd =>
    have hmark : (e == 'e' || e == 'E') = true := by simpa using he
    have hpos := List.length_pos_iff.mpr hd.1
    have hsignLength := signLength_append hsign hd rest
    have hdigits := digitsLength_append hd.2 rest
    have hne : digits.length + digitsLength rest ≠ 0 := by omega
    rw [List.cons_append, List.cons_append, List.append_assoc]
    simp only [exponentLength, hsignLength, List.drop_left, hdigits, hmark, Bool.true_and,
      decide_eq_true_eq, if_pos hne, List.length_cons, List.length_append]
    omega

/-- What begins with a literal reaches as far as the literal or further. -/
theorem length_le_length_append (h : IsLiteral front) (rest : List Char) :
    front.length ≤ length (front ++ rest) := by
  cases h with
  | plain hm =>
    rw [length_eq]
    rcases mantissaLength_append hm rest with hl | hl
    · omega
    · omega
  | @scaled mantissa exponent hm he =>
    have hexponent := length_le_exponentLength he rest
    rw [length_eq, List.append_assoc, mantissaLength_exact hm (he.head_not rest), List.drop_left,
      List.length_append]
    omega

theorem startsWith_append_of_isMantissa (h : IsMantissa front) (rest : List Char) :
    startsWith (front ++ rest) := by
  cases h with
  | whole hd | pointed hd =>
    obtain ⟨d, ds, rfl, hd, -⟩ := hd.exists_cons
    simp only [List.cons_append]
    rw [startsWith_cons (ne_point_of_isDigit hd), hd]
  | fraction hd =>
    obtain ⟨d, ds, rfl, hd, -⟩ := hd.exists_cons
    exact hd

theorem startsWith_append_of_isLiteral (h : IsLiteral front) (rest : List Char) :
    startsWith (front ++ rest) := by
  cases h with
  | plain hm => exact startsWith_append_of_isMantissa hm rest
  | scaled hm =>
    rw [List.append_assoc]
    exact startsWith_append_of_isMantissa hm _

theorem startsWith_iff : startsWith cs ↔ ∃ literal, IsLiteral literal ∧ literal <+: cs := by
  constructor
  · intro h
    exact ⟨_, isLiteral_take h, List.take_prefix _ _⟩
  · rintro ⟨literal, hl, rest, rfl⟩
    exact startsWith_append_of_isLiteral hl rest

/-- The literal that is taken is the longest there is. -/
theorem isLongest_take (h : startsWith cs) : IsLongest (cs.take (length cs)) cs where
  isLiteral := isLiteral_take h
  isPrefix := List.take_prefix _ _
  length_le := by
    rintro other hother ⟨rest, rfl⟩
    have hle := length_le_length_append hother rest
    have hall := length_le (other ++ rest)
    rw [List.length_take]
    omega

theorem IsLongest.eq_take {literal : List Char} (h : IsLongest literal cs) :
    startsWith cs ∧ literal = cs.take (length cs) := by
  have hs : startsWith cs := startsWith_iff.mpr ⟨literal, h.isLiteral, h.isPrefix⟩
  have htake := isLongest_take hs
  have hge := h.length_le _ htake.isLiteral htake.isPrefix
  have hle := htake.length_le _ h.isLiteral h.isPrefix
  have hprefix := List.prefix_of_prefix_length_le h.isPrefix htake.isPrefix hle
  exact ⟨hs, hprefix.eq_of_length_le hge⟩

end Literal

namespace Token

variable {c : Char} {cs : List Char} {text : String}

theorem first_eq_literal (h : (first c cs).1 = literal text) :
    Literal.startsWith (c :: cs) ∧ text.toList = (c :: cs).take (Literal.length (c :: cs)) := by
  simp only [first] at h
  split at h
  · cases h
  split at h
  · next hs =>
    obtain rfl := literal.inj h
    obtain ⟨n, hn⟩ := Nat.exists_eq_add_one.mpr (Literal.length_pos hs)
    rw [String.toList_ofList, hn, List.take_succ_cons, Nat.add_sub_cancel]
    exact ⟨hs, rfl⟩
  split at h
  · cases h
  split at h
  · split at h <;> cases h
  · next t ht hc =>
    obtain rfl : t = literal text := h
    simp only [ofChar?] at hc
    split at hc <;> simp at hc
  · cases h

/-- A text begins with a literal token if it begins with a literal, and the token is the longest. -/
theorem first_eq_literal_iff :
    (first c cs).1 = literal text ↔ Literal.IsLongest text.toList (c :: cs) := by
  constructor
  · intro h
    obtain ⟨hs, htext⟩ := first_eq_literal h
    rw [htext]
    exact Literal.isLongest_take hs
  · intro h
    obtain ⟨hs, htext⟩ := h.eq_take
    have hb := not_isBlank_of_isInner (Literal.isInner_of_startsWith hs)
    obtain ⟨n, hn⟩ := Nat.exists_eq_add_one.mpr (Literal.length_pos hs)
    rw [hn, List.take_succ_cons] at htext
    rw [first_literal hb hs, hn, Nat.add_sub_cancel, ← htext, String.ofList_toList]

/-- Where the tokens are cut in two, the text is. -/
theorem exists_cut_of_lex {before after : List Token} (h : lex cs = before ++ after) :
    ∃ front rest, cs = front ++ rest ∧ Spelling before front ∧ lex rest = after := by
  induction before generalizing cs with
  | nil => exact ⟨[], cs, rfl, .nil, h⟩
  | cons t before ih =>
    cases cs with
    | nil =>
      rw [lex] at h
      cases h
    | cons c cs =>
      rw [lex] at h
      obtain ⟨rfl, htokens⟩ := List.cons.inj h
      obtain ⟨w, hcs, hs⟩ := first_word c cs
      obtain ⟨front, rest, hrest, hspelling, hlex⟩ := ih htokens
      refine ⟨c :: w ++ front, rest, ?_, .cons (List.cons_ne_nil c w) hs hspelling, hlex⟩
      rw [List.append_assoc, ← hrest, List.cons_append, ← hcs]

theorem isLiteral_of_mem_lex (h : literal text ∈ lex cs) : Literal.IsLiteral text.toList := by
  induction cs using lex.induct with
  | case1 => simp [lex] at h
  | case2 c cs ih =>
    rw [lex] at h
    rcases List.mem_cons.mp h with h | h
    · exact (first_eq_literal_iff.mp h.symm).isLiteral
    · exact ih h

end Token

theorem Segment.isLiteral_of_mem {s : Segment} {p : Placed} {text : String} (hp : p ∈ s.tokens)
    (h : p.token = .literal text) : Literal.IsLiteral text.toList := by
  have hm : p.token ∈ s.tokens.map (·.token) := List.mem_map_of_mem hp
  rw [tokens, Placed.map_token_all] at hm
  obtain ⟨hm, -⟩ := List.mem_filter.mp hm
  rw [h] at hm
  exact Token.isLiteral_of_mem_lex hm

end FormulaMachine
