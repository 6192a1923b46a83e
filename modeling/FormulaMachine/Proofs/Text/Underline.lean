import FormulaMachine.Proofs.Splitting
import FormulaMachine.Text.Underline

/-!
Marking a column underlines one stretch of a text, and leaves the rest as it is. Where the text ends
before the column begins, a blank is added and underlined.
-/
namespace FormulaMachine.Text

variable {column : Column} {i : Nat} {cs : List Char}

/-! ### What is written from a character on -/

theorem marked_of_lt (h : i < column.start) : marked column i = false := by
  have hne : column.start ≠ i := by omega
  have hle : ¬ column.start ≤ i := by omega
  simp [marked, Column.contains, hne, hle]

/-- The first character of a column is marked, also if the column is empty. -/
theorem marked_start (column : Column) : marked column column.start = true := by
  by_cases h : column.start < column.stop
  · simp [marked, Column.contains, h]
  · have hempty : column.stop ≤ column.start := by omega
    simp [marked, Column.isEmpty, hempty]

theorem marked_of_gt (h : column.start < i) :
    marked column i = decide (i < column.stop) := by
  have hne : column.start ≠ i := by omega
  have hle : column.start ≤ i := by omega
  simp [marked, Column.contains, hne, hle]

/-- What stands behind a column is written as it is. -/
theorem underlineFrom_behind (h : column.start < i) (hstop : column.stop ≤ i) :
    underlineFrom column i false cs = cs := by
  induction cs generalizing i with
  | nil =>
    have hle : ¬ i ≤ column.start := by omega
    simp [underlineFrom, hle]
  | cons c cs ih =>
    have hm : marked column i = false := by
      have hlt : ¬ i < column.stop := by omega
      simp [marked_of_gt h, hlt]
    have ih := ih (i := i + 1) (by omega) (by omega)
    simp [underlineFrom, hm, ih]

/-- Once the underline is on, it goes off where the column ends, or else at the end of the text. -/
theorem underlineFrom_within (h : column.start < i) :
    underlineFrom column i true cs =
      cs.take (column.stop - i) ++ underlineOff ++ cs.drop (column.stop - i) := by
  induction cs generalizing i with
  | nil => simp [underlineFrom]
  | cons c cs ih =>
    by_cases hstop : i < column.stop
    · obtain ⟨n, hn⟩ : ∃ n, column.stop - i = n + 1 := ⟨column.stop - i - 1, by omega⟩
      have hm : marked column i = true := by simp [marked_of_gt h, hstop]
      have ih := ih (i := i + 1) (by omega)
      rw [show column.stop - (i + 1) = n by omega] at ih
      simp [underlineFrom, hm, ih, hn]
    · have hm : marked column i = false := by simp [marked_of_gt h, hstop]
      have hzero : column.stop - i = 0 := by omega
      have hrest : underlineFrom column (i + 1) false cs = cs :=
        underlineFrom_behind (by omega) (by omega)
      simp [underlineFrom, hm, hrest, hzero]

/-- The underline goes on in front of the first character of the column. -/
theorem underlineFrom_start (c : Char) (cs : List Char) :
    underlineFrom column column.start false (c :: cs) =
      underlineOn ++ c :: cs.take (column.stop - (column.start + 1)) ++ underlineOff ++
        cs.drop (column.stop - (column.start + 1)) := by
  have hm := marked_start column
  have hrest : underlineFrom column (column.start + 1) true cs = _ :=
    underlineFrom_within (Nat.lt_succ_self column.start)
  simp [underlineFrom, hm, hrest]

/-- What stands in front of a column is written as it is. -/
theorem underlineFrom_before (hi : i ≤ column.start) (hl : column.start ≤ i + cs.length) :
    underlineFrom column i false cs = cs.take (column.start - i) ++
      underlineFrom column column.start false (cs.drop (column.start - i)) := by
  induction cs generalizing i with
  | nil =>
    obtain rfl : i = column.start := by simp at hl; omega
    simp
  | cons c cs ih =>
    by_cases he : i = column.start
    · subst he
      simp
    · obtain ⟨n, hn⟩ : ∃ n, column.start - i = n + 1 := ⟨column.start - i - 1, by omega⟩
      have hm : marked column i = false := marked_of_lt (by omega)
      have ih := ih (i := i + 1) (by omega) (by simp at hl; omega)
      rw [show column.start - (i + 1) = n by omega] at ih
      simp [underlineFrom, hm, ih, hn]

/-- In a text that ends before the column nothing is marked, and a blank is marked at its end. -/
theorem underlineFrom_short (h : i + cs.length ≤ column.start) :
    underlineFrom column i false cs = cs ++ underlineOn ++ ' ' :: underlineOff := by
  induction cs generalizing i with
  | nil =>
    have hi : i ≤ column.start := by simpa using h
    simp [underlineFrom, hi]
  | cons c cs ih =>
    have hlt : i < column.start := by simp at h; omega
    have hm := marked_of_lt hlt
    have ih := ih (i := i + 1) (by simp at h; omega)
    simp [underlineFrom, hm, ih]

/-! ### The stretch that is marked -/

/-- The characters of a text that a column marks, with those before them and those behind them. -/
inductive Marks (column : Column) (text : List Char) : (before stretch after : List Char) → Prop
  | stretch {before stretch after : List Char} : column.start < text.length →
    column.start < column.stop → text = before ++ stretch ++ after →
    before.length = column.start → before.length + stretch.length = min column.stop text.length →
    Marks column text before stretch after
  | character {before after : List Char} {c : Char} : column.stop ≤ column.start →
    text = before ++ [c] ++ after → before.length = column.start →
    Marks column text before [c] after
  | blank : text.length ≤ column.start → Marks column text text [' '] []

/-- Characters other than those of the text are written in two places, around the stretch. -/
theorem exists_marks (text : List Char) (column : Column) : ∃ before stretch after,
    Marks column text before stretch after ∧
      underlineFrom column 0 false text =
        before ++ underlineOn ++ stretch ++ underlineOff ++ after := by
  by_cases hlt : column.start < text.length
  · -- `cs` is what stands behind the first marked character
    obtain ⟨c, cs, hdrop⟩ : ∃ c cs, text.drop column.start = c :: cs :=
      List.exists_cons_of_ne_nil (by simpa using hlt)
    have htext : text = text.take column.start ++ c :: cs := by
      rw [← hdrop, List.take_append_drop]
    have hbefore : (text.take column.start).length = column.start := by
      rw [List.length_take]
      omega
    have hlength : text.length = column.start + (cs.length + 1) := by
      have h := congrArg List.length hdrop
      rw [List.length_drop, List.length_cons] at h
      omega
    have hwritten : underlineFrom column 0 false text = _ :=
      underlineFrom_before (Nat.zero_le _) (by omega)
    rw [Nat.sub_zero, hdrop, underlineFrom_start] at hwritten
    by_cases hempty : column.start < column.stop
    · refine ⟨text.take column.start, c :: cs.take (column.stop - (column.start + 1)),
        cs.drop (column.stop - (column.start + 1)), .stretch hlt hempty ?_ hbefore ?_, ?_⟩
      · rw [List.append_assoc, List.cons_append, List.take_append_drop]
        exact htext
      · rw [hbefore, List.length_cons, List.length_take]
        omega
      · simpa using hwritten
    · have hzero : column.stop - (column.start + 1) = 0 := by omega
      refine ⟨text.take column.start, [c], cs, .character (by omega) ?_ hbefore, ?_⟩
      · simpa using htext
      · simpa [hzero] using hwritten
  · have hshort : text.length ≤ column.start := by omega
    have hwritten : underlineFrom column 0 false text = _ := underlineFrom_short (by omega)
    exact ⟨text, [' '], [], .blank hshort, by simpa using hwritten⟩

theorem Marks.count_eq {text before stretch after : List Char}
    (h : Marks column text before stretch after) {c : Char} (hc : c ≠ ' ') :
    (before ++ stretch ++ after).count c = text.count c := by
  cases h with
  | stretch _ _ htext => rw [htext]
  | character _ htext => rw [htext]
  | blank => simp [hc.symm]

/-- Where two escapes are all there are, they tell the parts of a text. -/
theorem escaped_unique {before stretch after before' stretch' after' : List Char}
    (h : '\x1b' ∉ before ++ stretch ++ after)
    (heq : before' ++ underlineOn ++ stretch' ++ underlineOff ++ after' =
      before ++ underlineOn ++ stretch ++ underlineOff ++ after) :
    before' = before ∧ stretch' = stretch ∧ after' = after := by
  have h' : '\x1b' ∉ before' ++ stretch' ++ after' := by
    have hcount := congrArg (List.count '\x1b') heq
    rw [← List.count_eq_zero] at h ⊢
    simp only [underlineOn, underlineOff, List.count_append] at h hcount ⊢
    omega
  simp only [List.mem_append, not_or] at h h'
  simp only [underlineOn, underlineOff, List.append_assoc, List.cons_append, List.nil_append]
    at heq
  obtain ⟨hbefore, heq⟩ := cut_unique h'.1.1 h.1.1 heq
  obtain ⟨hstretch, heq⟩ := cut_unique h'.1.2 h.1.2 (by simpa using heq)
  exact ⟨hbefore, hstretch, by simpa using heq⟩

/-- One stretch of a text is underlined: the characters of the column as far as the text goes, the
first of them if the column is empty, or a blank behind the text. No other escapes are added, so in
a text without escapes there is no other place where the underline goes on or off. -/
theorem underline_eq (text : String) (column : Column) : ∃ before stretch after,
    Marks column text.toList before stretch after ∧
    (underline text column).toList =
      before ++ "\x1b[4m".toList ++ stretch ++ "\x1b[0m".toList ++ after ∧
    (underline text column).toList.count '\x1b' = text.toList.count '\x1b' + 2 ∧
    ('\x1b' ∉ text.toList → ∀ before' stretch' after',
      (underline text column).toList =
          before' ++ "\x1b[4m".toList ++ stretch' ++ "\x1b[0m".toList ++ after' →
        before' = before ∧ stretch' = stretch ∧ after' = after) := by
  obtain ⟨before, stretch, after, hmarks, hwritten⟩ := exists_marks text.toList column
  have hcount := hmarks.count_eq (show '\x1b' ≠ ' ' by decide)
  rw [underline, String.toList_ofList, hwritten]
  refine ⟨before, stretch, after, hmarks, rfl, ?_, ?_⟩
  · have hon : underlineOn.count '\x1b' = 1 := rfl
    have hoff : underlineOff.count '\x1b' = 1 := rfl
    rw [← hcount]
    simp only [List.count_append, hon, hoff]
    omega
  · intro htext before' stretch' after' heq
    have hnone : '\x1b' ∉ before ++ stretch ++ after := by
      rwa [← List.count_eq_zero, hcount, List.count_eq_zero]
    exact escaped_unique hnone heq.symm

/-- A column that goes on behind the text, an empty one, and one behind the text. -/
example : underline "a+(" ⟨1, 9⟩ = "a\x1b[4m+(\x1b[0m" ∧
    underline "a+(" ⟨1, 1⟩ = "a\x1b[4m+\x1b[0m(" ∧
    underline "a+(" ⟨5, 7⟩ = "a+(\x1b[4m \x1b[0m" := by decide +kernel

end FormulaMachine.Text
