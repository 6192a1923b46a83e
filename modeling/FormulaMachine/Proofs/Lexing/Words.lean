import FormulaMachine.Proofs.Grammar
import FormulaMachine.Proofs.Lexing

/-!
A token stays what it is when the text behind it is cut by a seam. So tokens that are written with
blanks between them are read back.
-/
namespace FormulaMachine

/-- The text is at its end or at a blank, where no token goes on. -/
def AtBreak (cs : List Char) : Prop := ∀ c ∈ cs.head?, Text.isBlank c

/-- The text is at its end, at a blank, or at a colon or semicolon. -/
def AtSeam (cs : List Char) : Prop := ∀ c ∈ cs.head?, isInner c = false

theorem isInner_of_isBlank {c : Char} (h : Text.isBlank c) : isInner c = false := by
  simp [isInner, h]

theorem AtBreak.atSeam {cs : List Char} (h : AtBreak cs) : AtSeam cs :=
  fun c hc => isInner_of_isBlank (h c hc)

theorem not_of_not_isInner {p : Char → Bool} (hp : ∀ c, p c → isInner c) {c : Char}
    (hc : isInner c = false) : p c = false := by
  cases h : p c with
  | false => rfl
  | true => rw [hp c h] at hc; cases hc

theorem AtSeam.head_not {cs : List Char} (h : AtSeam cs) {p : Char → Bool}
    (hp : ∀ c, p c → isInner c) : ∀ c ∈ cs.head?, p c = false :=
  fun c hc => not_of_not_isInner hp (h c hc)

/-- What follows a cut is what has followed it before or a seam. -/
theorem head_of_isPrefix {f : Char → Prop} {front cs follow : List Char} (hfront : front <+: cs)
    (hcs : ∀ c ∈ cs.head?, f c) (hf : ∀ c ∈ follow.head?, f c) :
    ∀ c ∈ (front ++ follow).head?, f c := by
  obtain ⟨back, rfl⟩ := hfront
  cases front with
  | nil => exact hf
  | cons d front => exact hcs

/-- A stretch of a class is found again in front of what is not of the class. -/
theorem span_append {α : Type} {p : α → Bool} {xs ys : List α} (hx : ∀ x ∈ xs, p x)
    (hy : ∀ y ∈ ys.head?, p y = false) :
    (xs ++ ys).takeWhile p = xs ∧ (xs ++ ys).dropWhile p = ys := by
  rw [List.takeWhile_append_of_pos hx, List.dropWhile_append_of_pos hx]
  cases ys with
  | nil => simp
  | cons y ys => simp [hy y rfl]

namespace Literal

variable {cs follow : List Char} {n : Nat}

theorem digitsLength_take (h : AtSeam follow) (hn : digitsLength cs ≤ n) :
    digitsLength (cs.take n ++ follow) = digitsLength cs := by
  have hd := h.head_not fun c => isInner_of_isDigit
  induction cs generalizing n with
  | nil =>
    cases follow with
    | nil => simp
    | cons c follow => simp [digitsLength, hd c rfl]
  | cons c cs ih =>
    by_cases hc : c.isDigit
    · simp only [digitsLength, List.takeWhile_cons_of_pos hc, List.length_cons] at hn
      obtain ⟨m, rfl⟩ : ∃ m, n = m + 1 := ⟨n - 1, by omega⟩
      have ih := @ih m (by simp only [digitsLength]; omega)
      simpa [digitsLength, hc] using ih
    · cases n with
      | zero =>
        cases follow with
        | nil => simp [digitsLength, hc]
        | cons d follow => simp [digitsLength, hc, hd d rfl]
      | succ n => simp [digitsLength, hc]

theorem fractionLength_of_seam (h : AtSeam follow) : fractionLength follow = 0 := by
  cases follow with
  | nil => rfl
  | cons c follow =>
    have hb := h c rfl
    simp only [fractionLength]
    split
    · next hc =>
      cases hc
      cases hb
    · rfl

theorem fractionLength_take (h : AtSeam follow) (hn : fractionLength cs ≤ n) :
    fractionLength (cs.take n ++ follow) = fractionLength cs := by
  cases n with
  | zero =>
    rw [List.take_zero, List.nil_append, fractionLength_of_seam h]
    omega
  | succ n =>
    cases cs with
    | nil => simpa [fractionLength] using fractionLength_of_seam h
    | cons c cs =>
      by_cases hc : c = '.'
      · subst hc
        have hn : digitsLength cs + 1 ≤ n + 1 := hn
        have hd := digitsLength_take h (Nat.le_of_succ_le_succ hn)
        simp [fractionLength, hd]
      · simp [fractionLength, hc]

theorem exponentLength_of_seam (h : AtSeam follow) : exponentLength follow = 0 := by
  cases follow with
  | nil => rfl
  | cons c follow =>
    have hb := h c rfl
    have he : c ≠ 'e' := by
      rintro rfl
      cases hb
    have hE : c ≠ 'E' := by
      rintro rfl
      cases hb
    simp [exponentLength, he, hE]

theorem signLength_of_seam (h : AtSeam follow) : signLength follow = 0 := by
  cases follow with
  | nil => rfl
  | cons c follow =>
    have hb := h c rfl
    simp only [signLength]
    split
    · next hc =>
      cases hc
      cases hb
    · next hc =>
      cases hc
      cases hb
    · rfl

theorem signLength_cons (c : Char) (xs ys : List Char) :
    signLength (c :: xs) = signLength (c :: ys) := by
  simp only [signLength]
  split <;> split <;> simp_all

theorem signLength_take (follow : List Char) (hc : cs ≠ []) (hn : 0 < n) :
    signLength (cs.take n ++ follow) = signLength cs := by
  cases cs with
  | nil => exact absurd rfl hc
  | cons c cs =>
    obtain ⟨m, rfl⟩ : ∃ m, n = m + 1 := ⟨n - 1, by omega⟩
    exact signLength_cons ..

theorem signLength_le (cs : List Char) : signLength cs ≤ cs.length ∧ signLength cs ≤ 1 := by
  cases cs with
  | nil => exact ⟨Nat.le_refl 0, Nat.zero_le 1⟩
  | cons c cs =>
    simp only [signLength, List.length_cons]
    split <;> omega

theorem drop_take_append {m : Nat} (hm : m ≤ n) (hl : m ≤ cs.length) :
    (cs.take n ++ follow).drop m = (cs.drop m).take (n - m) ++ follow := by
  rw [List.drop_append_of_le_length (by rw [List.length_take]; omega), List.drop_take]

/-- The digits behind a sign, if they are not cut off. -/
theorem signedDigits_take (h : AtSeam follow)
    (hn : digitsLength (cs.drop (signLength cs)) ≠ 0 →
      signLength cs + digitsLength (cs.drop (signLength cs)) ≤ n) :
    digitsLength ((cs.take n ++ follow).drop (signLength (cs.take n ++ follow))) =
      digitsLength (cs.drop (signLength cs)) := by
  by_cases hne : 0 < n ∧ cs ≠ []
  · obtain ⟨hpos, hcs⟩ := hne
    obtain ⟨hl, hone⟩ := signLength_le cs
    rw [signLength_take follow hcs hpos, drop_take_append (by omega) hl]
    exact digitsLength_take h (by omega)
  · have htake : cs.take n = [] := List.take_eq_nil_iff.mpr (by
      by_cases hcs : cs = []
      · exact .inr hcs
      · exact .inl (by simp_all))
    have hzero : digitsLength follow = 0 := @digitsLength_take [] _ 0 h (Nat.zero_le 0)
    rw [htake, List.nil_append, signLength_of_seam h, List.drop_zero, hzero]
    rcases List.take_eq_nil_iff.mp htake with rfl | rfl
    · omega
    · rfl

theorem exponentLength_take (h : AtSeam follow) (hn : exponentLength cs ≤ n) :
    exponentLength (cs.take n ++ follow) = exponentLength cs := by
  cases n with
  | zero =>
    rw [List.take_zero, List.nil_append, exponentLength_of_seam h]
    omega
  | succ n =>
    cases cs with
    | nil => exact exponentLength_of_seam h
    | cons c cs =>
      rw [List.take_succ_cons, List.cons_append]
      by_cases hc : (c == 'e' || c == 'E') = true
      · simp only [exponentLength, hc, Bool.true_and, decide_eq_true_eq] at hn ⊢
        have hd := signedDigits_take (n := n) h fun hd => by
          rw [if_pos hd] at hn
          omega
        by_cases hzero : digitsLength (cs.drop (signLength cs)) = 0
        · simp [hd, hzero]
        · have hcs : cs ≠ [] := by
            rintro rfl
            exact hzero rfl
          rw [if_pos hzero] at hn
          rw [hd, signLength_take follow hcs (by omega)]
      · simp [exponentLength, hc]

theorem digitsLength_le (cs : List Char) : digitsLength cs ≤ cs.length :=
  (List.takeWhile_sublist _).length_le

theorem fractionLength_le (cs : List Char) : fractionLength cs ≤ cs.length := by
  simp only [fractionLength]
  split
  · exact Nat.succ_le_succ (digitsLength_le _)
  · exact Nat.zero_le _

theorem exponentLength_le (cs : List Char) : exponentLength cs ≤ cs.length := by
  cases cs with
  | nil => exact Nat.le_refl 0
  | cons c cs =>
    have hd := digitsLength_le (cs.drop (signLength cs))
    rw [List.length_drop] at hd
    simp only [exponentLength, List.length_cons]
    split
    · next hc =>
      have hd' : digitsLength (cs.drop (signLength cs)) ≠ 0 := by simp_all
      omega
    · omega

theorem length_le (cs : List Char) : length cs ≤ cs.length := by
  have hw := digitsLength_le cs
  have hf := fractionLength_le (cs.drop (digitsLength cs))
  have he := exponentLength_le
    (cs.drop (digitsLength cs + fractionLength (cs.drop (digitsLength cs))))
  rw [List.length_drop] at hf he
  simp only [length]
  omega

/-- A literal reaches as far as before if the text is cut behind it. -/
theorem length_take (h : AtSeam follow) (hn : length cs ≤ n) :
    length (cs.take n ++ follow) = length cs := by
  have hw := digitsLength_le cs
  have hf := fractionLength_le (cs.drop (digitsLength cs))
  rw [List.length_drop] at hf
  simp only [length] at hn ⊢
  generalize hm : digitsLength cs + fractionLength (cs.drop (digitsLength cs)) = mantissa at hn ⊢
  rw [digitsLength_take h (by omega), drop_take_append (by omega) hw,
    fractionLength_take h (by omega), hm, drop_take_append (by omega) (by omega),
    exponentLength_take h (by omega)]

theorem startsWith_cons {c : Char} (hc : c ≠ '.') (cs : List Char) :
    startsWith (c :: cs) = c.isDigit := by
  cases cs <;> simp [startsWith, hc]

theorem length_pos {c : Char} (hs : startsWith (c :: cs)) : 0 < length (c :: cs) := by
  by_cases hc : c = '.'
  · subst hc
    simp only [length, digitsLength, List.takeWhile_cons_of_neg (show ¬ '.'.isDigit by decide),
      List.length_nil, List.drop_zero, fractionLength]
    omega
  · rw [startsWith_cons hc] at hs
    simp only [length, digitsLength, List.takeWhile_cons_of_pos hs, List.length_cons]
    omega

theorem startsWith_take {c : Char} (follow : List Char) (hs : startsWith (c :: cs)) :
    startsWith (c :: (cs.take (length (c :: cs) - 1) ++ follow)) := by
  by_cases hc : c = '.'
  · subst hc
    cases cs with
    | nil => cases hs
    | cons d cs =>
      have hd : d.isDigit := hs
      have hl : 2 ≤ length ('.' :: d :: cs) := by
        simp only [length, digitsLength, List.takeWhile_cons_of_neg (show ¬ '.'.isDigit by decide),
          List.length_nil, List.drop_zero, fractionLength, List.takeWhile_cons_of_pos hd,
          List.length_cons]
        omega
      obtain ⟨n, hn⟩ : ∃ n, length ('.' :: d :: cs) - 1 = n + 1 :=
        ⟨length ('.' :: d :: cs) - 2, by omega⟩
      rw [hn]
      exact hd
  · rw [startsWith_cons hc] at hs ⊢
    exact hs

theorem startsWith_append {c : Char} {front : List Char} (h : AtSeam follow) (hf : front <+: cs)
    (hs : startsWith (c :: cs) = false) : startsWith (c :: (front ++ follow)) = false := by
  by_cases hc : c = '.'
  · subst hc
    have hd : ∀ d ∈ cs.head?, d.isDigit = false := by
      cases cs with
      | nil => exact nofun
      | cons d cs =>
        rintro _ ⟨⟩
        exact hs
    have hd := head_of_isPrefix hf hd (h.head_not fun d => isInner_of_isDigit)
    cases hcs : front ++ follow with
    | nil => rfl
    | cons d ds => exact hd d (by rw [hcs]; rfl)
  · rw [startsWith_cons hc] at hs ⊢
    exact hs

end Literal

namespace Token

variable {c : Char} {cs w front follow : List Char}

theorem first_literal (hb : Text.isBlank c = false) (hs : Literal.startsWith (c :: cs)) :
    first c cs = (literal (String.ofList (c :: cs.take (Literal.length (c :: cs) - 1))),
      cs.drop (Literal.length (c :: cs) - 1)) := by
  simp [first, hb, hs]

theorem first_identifier (hb : Text.isBlank c = false)
    (hs : Literal.startsWith (c :: cs) = false) (hn : isNameStart c) :
    first c cs =
      (identifier (String.ofList (c :: cs.takeWhile isNameChar)), cs.dropWhile isNameChar) := by
  simp [first, hb, hs, hn]

theorem first_symbol (hb : Text.isBlank c = false)
    (hs : Literal.startsWith (c :: cs) = false) (hn : isNameStart c = false) :
    (∃ op longer, ofChar? c = some (operator op) ∧ cs.head?.bind op.extend? = some longer ∧
      first c cs = (operator longer, cs.tail)) ∨
    (∃ op, ofChar? c = some (operator op) ∧ cs.head?.bind op.extend? = none ∧
      first c cs = (operator op, cs)) ∨
    first c cs = ((ofChar? c).getD (unknown c), cs) ∧
      ∀ op, ofChar? c ≠ some (operator op) := by
  simp only [first, hb, hs, hn, Bool.false_eq_true, if_false]
  split
  · next op hop =>
    split
    · next longer hl => exact .inl ⟨op, longer, hop, hl, rfl⟩
    · next hl => exact .inr (.inl ⟨op, hop, hl, rfl⟩)
  · next t ht hc =>
    refine .inr (.inr ⟨by rw [hc]; rfl, fun op hop => ?_⟩)
    rw [hc] at hop
    exact ht op (Option.some.inj hop)
  · next hc => exact .inr (.inr ⟨by rw [hc]; rfl, by simp [hc]⟩)

theorem isInner_of_extend? {d : Char} {op longer : Operator} (h : op.extend? d = some longer) :
    isInner d := by
  simp only [Operator.extend?] at h
  split at h <;> cases h <;> rfl

/-- An operator that its text does not make longer is not made longer by a seam in it. -/
theorem extend?_append {op : Operator} (h : AtSeam follow) (hf : front <+: cs)
    (hn : cs.head?.bind op.extend? = none) : (front ++ follow).head?.bind op.extend? = none := by
  have hcs : ∀ d ∈ cs.head?, op.extend? d = none := Option.bind_eq_none_iff.mp hn
  refine Option.bind_eq_none_iff.mpr (head_of_isPrefix hf hcs fun d hd => ?_)
  cases he : op.extend? d with
  | none => rfl
  | some longer =>
    have hi := h d hd
    rw [isInner_of_extend? he] at hi
    cases hi

section
variable (h : AtSeam follow) (hb : Text.isBlank c = false)
include h hb

theorem first_literal_of_seam (hs : Literal.startsWith (c :: cs))
    (hw : cs = w ++ (first c cs).2) (hf : front <+: (first c cs).2) :
    first c (w ++ (front ++ follow)) = ((first c cs).1, front ++ follow) := by
  have hl := Literal.length_le (c :: cs)
  have hs' := Literal.startsWith_take (front ++ follow) hs
  rw [first_literal hb hs] at hw hf ⊢
  obtain ⟨n, hn⟩ : ∃ n, Literal.length (c :: cs) = n + 1 :=
    ⟨_, (Nat.succ_pred (Nat.ne_of_gt (Literal.length_pos hs))).symm⟩
  simp only [hn, Nat.add_sub_cancel, List.length_cons] at hl hs' hw hf ⊢
  obtain rfl : w = cs.take n :=
    List.append_cancel_right (hw.symm.trans (List.take_append_drop n cs).symm)
  have ht : (cs.take n).length = n := by
    rw [List.length_take]
    omega
  have hfront : (c :: cs).take (n + 1 + front.length) = c :: (cs.take n ++ front) := by
    rw [Nat.add_right_comm, List.take_succ_cons, List.take_add, ← List.prefix_iff_eq_take.mp hf]
  have hlen := @Literal.length_take (c :: cs) _ (n + 1 + front.length) h (by omega)
  rw [hfront, List.cons_append, List.append_assoc, hn] at hlen
  rw [first_literal hb hs', hlen, Nat.add_sub_cancel, List.take_left' ht, List.drop_left' ht]

theorem first_identifier_of_seam (hs : Literal.startsWith (c :: cs) = false)
    (hn : isNameStart c) (hw : cs = w ++ (first c cs).2) (hf : front <+: (first c cs).2) :
    first c (w ++ (front ++ follow)) = ((first c cs).1, front ++ follow) := by
  have hc : c ≠ '.' := by
    rintro rfl
    cases hn
  rw [first_identifier hb hs hn] at hw hf ⊢
  obtain rfl : w = cs.takeWhile isNameChar :=
    List.append_cancel_right (hw.symm.trans List.takeWhile_append_dropWhile.symm)
  have hd : ∀ d ∈ (front ++ follow).head?, isNameChar d = false :=
    head_of_isPrefix hf (fun d hd => by
      have hn := List.head?_dropWhile_not isNameChar cs
      rwa [hd] at hn) (h.head_not fun d => isInner_of_isNameChar)
  obtain ⟨ht, hd⟩ := span_append (fun d hd => List.all_eq_true.mp List.all_takeWhile d hd) hd
  rw [Literal.startsWith_cons hc] at hs
  rw [first_identifier hb (by rwa [Literal.startsWith_cons hc]) hn, ht, hd]

theorem first_symbol_of_seam (hs : Literal.startsWith (c :: cs) = false)
    (hn : isNameStart c = false) (hw : cs = w ++ (first c cs).2) (hf : front <+: (first c cs).2) :
    first c (w ++ (front ++ follow)) = ((first c cs).1, front ++ follow) := by
  rcases first_symbol hb hs hn with ⟨op, longer, hop, hl, he⟩ | ⟨op, hop, hl, he⟩ | ⟨he, hop⟩
  · rw [he] at hw hf ⊢
    obtain ⟨d, hd, hl'⟩ := Option.bind_eq_some_iff.mp hl
    obtain ⟨ds, rfl⟩ := List.head?_eq_some_iff.mp hd
    obtain rfl : w = [d] := List.append_cancel_right (hw.symm : w ++ ds = [d] ++ ds)
    have hc : c ≠ '.' := by
      rintro rfl
      cases hop
    have hs' : Literal.startsWith (c :: d :: (front ++ follow)) = false := by
      rw [Literal.startsWith_cons hc] at hs ⊢
      exact hs
    simp [first, hb, hs', hn, hop, hl']
  · rw [he] at hw hf ⊢
    obtain rfl : w = [] := List.append_left_eq_self.mp hw.symm
    have hs' := Literal.startsWith_append h hf hs
    simp only [first, List.nil_append, hb, hs', hn, hop, extend?_append h hf hl, Bool.false_eq_true,
      if_false]
  · rw [he] at hw hf ⊢
    obtain rfl : w = [] := List.append_left_eq_self.mp hw.symm
    have hs' := Literal.startsWith_append h hf hs
    rcases first_symbol hb hs' hn with ⟨op, _, hop', _, _⟩ | ⟨op, hop', _, _⟩ | ⟨he', -⟩
    · exact absurd hop' (hop op)
    · exact absurd hop' (hop op)
    · exact he'

end

/-- The first token of a text stays what it is when a seam is put anywhere behind it. -/
theorem first_of_seam (h : AtSeam follow) (hb : (first c cs).1.isBlank = false)
    (hw : cs = w ++ (first c cs).2) (hf : front <+: (first c cs).2) :
    first c (w ++ (front ++ follow)) = ((first c cs).1, front ++ follow) := by
  by_cases hc : Text.isBlank c
  · simp [first, hc, isBlank] at hb
  have hc : Text.isBlank c = false := by simpa using hc
  by_cases hs : Literal.startsWith (c :: cs)
  · exact first_literal_of_seam h hc hs hw hf
  have hs : Literal.startsWith (c :: cs) = false := by simpa using hs
  by_cases hn : isNameStart c
  · exact first_identifier_of_seam h hc hs hn hw hf
  · exact first_symbol_of_seam h hc hs (by simpa using hn) hw hf

theorem Spells.text_eq {t : Token} (h : t.Spells w) (hb : t.isBlank = false) :
    t.text.toList = w := by
  cases t with
  | blank => cases hb
  | unknown d =>
    rw [h.1]
    simp [text]
  | literal | identifier | operator | leftParen | rightParen | comma => exact h.1

/-- The first token of a text begins with the first character. -/
theorem first_word (c : Char) (cs : List Char) :
    ∃ w, cs = w ++ (first c cs).2 ∧ (first c cs).1.Spells (c :: w) := by
  obtain ⟨w, hw, hc, hs⟩ := first_spells c cs
  obtain ⟨d, w, rfl⟩ := List.exists_cons_of_ne_nil hw
  obtain ⟨rfl, hcs⟩ := List.cons.inj hc
  exact ⟨w, hcs, hs⟩

/-- A token that can be read back from its text in front of a break. -/
structure Legible (t : Token) : Prop where
  not_isBlank : t.isBlank = false
  lex_append : ∀ follow, AtBreak follow → lex (t.text.toList ++ follow) = t :: lex follow

theorem legible_of_mem_lex {t : Token} (h : t ∈ lex cs) (hb : t.isBlank = false) : t.Legible := by
  induction cs using lex.induct with
  | case1 => simp [lex] at h
  | case2 c cs ih =>
    rw [lex] at h
    rcases List.mem_cons.mp h with rfl | h
    · obtain ⟨w, hcs, hs⟩ := first_word c cs
      refine ⟨hb, fun follow hf => ?_⟩
      have hfirst := first_of_seam hf.atSeam hb hcs List.nil_prefix
      rw [List.nil_append] at hfirst
      rw [hs.text_eq hb, List.cons_append, lex, hfirst]
    · exact ih h

/-- Tokens with a blank behind each. -/
def write (ts : List Token) : List Char := ts.flatMap fun t => t.text.toList ++ [' ']

/-- Blanks in front of a text make no other tokens of it. -/
theorem filter_lex_dropWhile (cs : List Char) :
    (lex (cs.dropWhile Text.isBlank)).filter (!·.isBlank) = (lex cs).filter (!·.isBlank) := by
  cases cs with
  | nil => rfl
  | cons c cs =>
    by_cases hc : Text.isBlank c
    · have hl : lex (c :: cs) = (first c cs).1 :: lex (first c cs).2 := by rw [lex]
      rw [List.dropWhile_cons_of_pos hc, hl]
      simp [first, hc, isBlank]
    · rw [List.dropWhile_cons_of_neg hc]

theorem filter_lex_write {ts : List Token} (h : ∀ t ∈ ts, t.Legible) :
    (lex (write ts)).filter (!·.isBlank) = ts := by
  induction ts with
  | nil => simp [write, lex]
  | cons t ts ih =>
    obtain ⟨ht, hts⟩ := List.forall_mem_cons.mp h
    have hb : AtBreak (' ' :: write ts) := by
      rintro c ⟨⟩
      rfl
    have hw : write (t :: ts) = t.text.toList ++ ' ' :: write ts := by simp [write]
    have hd := filter_lex_dropWhile (' ' :: write ts)
    rw [List.dropWhile_cons_of_pos rfl, filter_lex_dropWhile] at hd
    rw [hw, ht.lex_append _ hb, List.filter_cons_of_pos (by simp [ht.not_isBlank]), ← hd, ih hts]

end Token

/-- What is left of tokens that are put in their places. -/
theorem Placed.map_token_all (offset : Nat) (ts : List Token) :
    (all offset ts).map (·.token) = ts.filter (!·.isBlank) := by
  induction ts generalizing offset with
  | nil => rfl
  | cons t ts ih =>
    simp only [all]
    split
    · next hb => simp [hb, ih]
    · next hb => simp [hb, ih]

theorem Segment.tokens_write {ts : List Token} (h : ∀ t ∈ ts, t.Legible) (offset : Nat) :
    (Segment.tokens ⟨String.ofList (Token.write ts), offset⟩).map (·.token) = ts := by
  rw [tokens, String.toList_ofList, Placed.map_token_all, Token.filter_lex_write h]

theorem Segment.legible_of_mem {s : Segment} {p : Placed} (h : p ∈ s.tokens) :
    p.token.Legible := by
  have hm : p.token ∈ s.tokens.map (·.token) := List.mem_map_of_mem h
  rw [tokens, Placed.map_token_all] at hm
  obtain ⟨hm, hb⟩ := List.mem_filter.mp hm
  exact Token.legible_of_mem_lex hm (by simpa using hb)

theorem Token.legible_of_mem_call {t : Token}
    (h : t ∈ [identifier "pi", leftParen, comma, rightParen]) : t.Legible := by
  have hl : lex ['p', 'i', '(', ',', ')'] = [identifier "pi", leftParen, comma, rightParen] := by
    decide +kernel
  refine legible_of_mem_lex (hl ▸ h) ?_
  simp only [List.mem_cons, List.not_mem_nil, or_false] at h
  rcases h with rfl | rfl | rfl | rfl <;> rfl

end FormulaMachine
