import FormulaMachine.Proofs.Lexing.Words
import FormulaMachine.Proofs.Splitting

/-! Words, the gaps that part them, and what trimming leaves of a text. -/
namespace FormulaMachine

namespace Text

/-- What parts words. -/
def IsGap (cs : List Char) : Prop := cs ≠ [] ∧ ∀ c ∈ cs, isBlank c

def IsWord (cs : List Char) : Prop := cs ≠ [] ∧ ∀ c ∈ cs, isBlank c = false

/-- There are blanks neither in front nor at the end. -/
def IsTrimmed (cs : List Char) : Prop :=
  cs ≠ [] ∧ (∀ c ∈ cs.head?, isBlank c = false) ∧ ∀ c ∈ cs.getLast?, isBlank c = false

instance : DecidablePred IsGap := fun cs =>
  decidable_of_iff ((!cs.isEmpty && cs.all isBlank) = true) (by simp [IsGap])

instance : DecidablePred IsWord := fun cs =>
  decidable_of_iff ((!cs.isEmpty && cs.all (!isBlank ·)) = true) (by simp [IsWord])

instance : DecidablePred IsTrimmed := fun cs =>
  decidable_of_iff
    ((!cs.isEmpty && (cs.head?.all (!isBlank ·) && cs.getLast?.all (!isBlank ·))) = true)
    (by simp [IsTrimmed, Option.all_eq_true])

variable {cs word argument gap before after rest : List Char}

theorem trim_append (hb : ∀ c ∈ before, isBlank c) (h : IsTrimmed cs)
    (ha : ∀ c ∈ after, isBlank c) : trim (before ++ cs ++ after) = cs := by
  obtain ⟨hne, hhead, hlast⟩ := h
  have hstart : trimStart (before ++ (cs ++ after)) = cs ++ after := by
    refine (span_append hb ?_).2
    obtain ⟨c, cs, rfl⟩ := List.exists_cons_of_ne_nil hne
    exact hhead
  have hend : (after.reverse ++ cs.reverse).dropWhile isBlank = cs.reverse := by
    refine (span_append (fun c hc => ha c (List.mem_reverse.mp hc)) ?_).2
    rwa [List.head?_reverse]
  rw [List.append_assoc, trim, hstart, trimEnd, List.reverse_append, hend, List.reverse_reverse]

theorem isTrimmed_trim (h : trim cs ≠ []) : IsTrimmed (trim cs) := by
  obtain ⟨after, -, ht⟩ := eq_append_trim cs
  refine ⟨h, fun c hc => ?_, fun c hc => ?_⟩
  · have hs : trimStart cs = trim cs ++ after := by
      rw [List.append_assoc] at ht
      exact List.append_cancel_left (List.takeWhile_append_dropWhile.trans ht)
    obtain ⟨d, ds, hd⟩ := List.exists_cons_of_ne_nil h
    rw [hd] at hs hc
    obtain rfl : d = c := Option.some.inj hc
    have hhead := List.head?_dropWhile_not isBlank cs
    rw [← trimStart, hs] at hhead
    exact hhead
  · have hlast := List.head?_dropWhile_not isBlank (trimStart cs).reverse
    rw [← List.getLast?_reverse, ← trimEnd, ← trim, hc] at hlast
    exact hlast

/-- A trimmed text has no blanks to take off its front. -/
theorem IsTrimmed.eq_nil_of_blank_before (h : IsTrimmed (before ++ cs))
    (hb : ∀ c ∈ before, isBlank c) : before = [] := by
  cases before with
  | nil => rfl
  | cons c before =>
    have hc := h.2.1 c rfl
    rw [hb c List.mem_cons_self] at hc
    cases hc

/-- Nor has it any at its end. -/
theorem IsTrimmed.eq_nil_of_blank_after (h : IsTrimmed (cs ++ after))
    (ha : ∀ c ∈ after, isBlank c) : after = [] := by
  rcases List.eq_nil_or_concat after with rfl | ⟨after, c, rfl⟩
  · rfl
  · rw [List.concat_eq_append] at h ha
    have hc := h.2.2 c (by rw [← List.append_assoc, List.getLast?_concat]; rfl)
    rw [ha c List.mem_concat_self] at hc
    cases hc

/-- A word is what there is up to the next blank. -/
theorem IsWord.span (hw : IsWord word) (hr : ∀ c ∈ rest.head?, isBlank c) :
    (word ++ rest).takeWhile (!isBlank ·) = word ∧
      (word ++ rest).dropWhile (!isBlank ·) = rest := by
  refine span_append (fun c hc => ?_) (fun c hc => ?_)
  · rw [hw.2 c hc, Bool.not_false]
  · rw [hr c hc, Bool.not_true]

theorem IsWord.isBlank_head (hw : IsWord word) : ∀ c ∈ word.head?, isBlank c = false :=
  fun c hc => hw.2 c (List.mem_of_mem_head? hc)

theorem isBlank_head_dropWhile (cs : List Char) :
    ∀ c ∈ (cs.dropWhile (!isBlank ·)).head?, isBlank c := by
  intro c hc
  have hd := List.head?_dropWhile_not (!isBlank ·) cs
  rw [hc] at hd
  simpa using hd

theorem IsGap.isBlank_head (hg : IsGap gap) (rest : List Char) :
    ∀ c ∈ (gap ++ rest).head?, isBlank c := by
  obtain ⟨hne, hb⟩ := hg
  obtain ⟨d, ds, rfl⟩ := List.exists_cons_of_ne_nil hne
  rintro c ⟨⟩
  exact hb _ List.mem_cons_self

/-- Blanks are a gap where a blank has to come first and something else follows them. -/
theorem isGap_of_isBlank_head (hg : ∀ c ∈ gap, isBlank c) (hc : ∀ c ∈ cs.head?, isBlank c = false)
    (hne : cs ≠ []) (h : ∀ c ∈ (gap ++ (cs ++ rest)).head?, isBlank c) : IsGap gap := by
  refine ⟨?_, hg⟩
  rintro rfl
  obtain ⟨c, cs, rfl⟩ := List.exists_cons_of_ne_nil hne
  have hb := h c rfl
  rw [hc c rfl] at hb
  cases hb

theorem exists_gap_trim (h : trim cs ≠ []) (hc : ∀ c ∈ cs.head?, isBlank c) :
    ∃ gap after, cs = gap ++ trim cs ++ after ∧ IsGap gap ∧ IsTrimmed (trim cs) ∧
      ∀ c ∈ after, isBlank c := by
  have ht := isTrimmed_trim h
  obtain ⟨after, hafter, hcs⟩ := eq_append_trim cs
  have hblank : ∀ c ∈ (cs.takeWhile isBlank ++ (trim cs ++ after)).head?, isBlank c := by
    rwa [← List.append_assoc, ← hcs]
  have hgap := isGap_of_isBlank_head (List.all_eq_true.mp List.all_takeWhile) ht.2.1 ht.1 hblank
  exact ⟨cs.takeWhile isBlank, after, hcs, hgap, ht, hafter⟩

end Text

end FormulaMachine
