import FormulaMachine.Proofs.Trimming
import FormulaMachine.Session

/-!
What a line asks for, by the characters that it is written with: an expression, an assignment, or a
command with an argument.
-/
namespace FormulaMachine

namespace Session

open Text

/-- A line that names a command, with an argument. -/
def Commands (line : String) (word argument : List Char) : Prop :=
  ∃ gap after, IsGap gap ∧ IsTrimmed argument ∧ (∀ c ∈ after, isBlank c) ∧
    line.toList = ':' :: (word ++ (gap ++ argument ++ after))

section
variable {line : String} {cs word argument rest : List Char}

theorem commands_iff (hl : line.toList = ':' :: cs) (hw : IsWord word) (ha : argument ≠ []) :
    Commands line word argument ↔
      cs.takeWhile (!isBlank ·) = word ∧ trim (cs.dropWhile (!isBlank ·)) = argument := by
  constructor
  · rintro ⟨gap, after, hgap, harg, hafter, hline⟩
    obtain rfl : cs = word ++ (gap ++ argument ++ after) :=
      (List.cons.inj (hl.symm.trans hline)).2
    have hblank : ∀ c ∈ (gap ++ argument ++ after).head?, isBlank c := by
      rw [List.append_assoc]
      exact hgap.isBlank_head _
    obtain ⟨hword, hrest⟩ := hw.span hblank
    exact ⟨hword, (congrArg trim hrest).trans (trim_append hgap.2 harg hafter)⟩
  · rintro ⟨rfl, rfl⟩
    obtain ⟨gap, after, hrest, hgap, htrim, hafter⟩ :=
      exists_gap_trim ha (isBlank_head_dropWhile cs)
    refine ⟨gap, after, hgap, htrim, hafter, ?_⟩
    rw [hl, ← hrest, List.takeWhile_append_dropWhile]

end
namespace Table

/-- The words of a table: a name, the first and the last value, and how many steps to take. An
expression follows. -/
inductive Spelled : List Char → Table → Prop
  | intro {name start stop steps source gap₁ gap₂ gap₃ gap₄ : List Char} {x y : Float}
      {n : UInt64} :
    (∀ word ∈ [name, start, stop, steps], IsWord word) →
    (∀ gap ∈ [gap₁, gap₂, gap₃, gap₄], IsGap gap) → IsTrimmed source →
    Decimal.readSigned? start = some x → Decimal.readSigned? stop = some y →
    Decimal.readWord? steps = some n → n ≠ 0 →
    Spelled (name ++ gap₁ ++ start ++ gap₂ ++ stop ++ gap₃ ++ steps ++ gap₄ ++ source)
      { name := String.ofList name, start := x, stop := y, steps := n.toNat,
        source := String.ofList source }

/-- A line that asks for a table. -/
def Written (t : Table) (line : String) : Prop :=
  ∃ argument, Commands line "table".toList argument ∧ Spelled argument t

section
variable {cs word gap rest : List Char}

theorem word?_append (hg : ∀ c ∈ gap, isBlank c) (hw : IsWord word)
    (hr : ∀ c ∈ rest.head?, isBlank c) : word? (gap ++ (word ++ rest)) = some (word, rest) := by
  obtain ⟨htake, hdrop⟩ := hw.span hr
  obtain ⟨d, ds, rfl⟩ := List.exists_cons_of_ne_nil hw.1
  have hstart : trimStart (gap ++ (d :: ds ++ rest)) = d :: ds ++ rest := by
    refine (span_append hg ?_).2
    rintro c ⟨⟩
    exact hw.2 _ List.mem_cons_self
  simp only [word?, hstart, htake, hdrop]

theorem word?_eq_some (h : word? cs = some (word, rest)) : ∃ gap, cs = gap ++ (word ++ rest) ∧
    (∀ c ∈ gap, isBlank c) ∧ IsWord word ∧ ∀ c ∈ rest.head?, isBlank c := by
  simp only [word?] at h
  split at h
  · cases h
  · next hne =>
    cases h
    refine ⟨cs.takeWhile isBlank, ?_, List.all_eq_true.mp List.all_takeWhile, ⟨hne, fun c hc => ?_⟩,
      isBlank_head_dropWhile _⟩
    · rw [List.takeWhile_append_dropWhile, trimStart, List.takeWhile_append_dropWhile]
    · simpa using List.all_eq_true.mp List.all_takeWhile c hc

/-- A word behind another has a gap in front of it. -/
theorem word?_eq_some_of_isBlank_head (h : word? cs = some (word, rest))
    (hc : ∀ c ∈ cs.head?, isBlank c) : ∃ gap, cs = gap ++ (word ++ rest) ∧ IsGap gap ∧
      IsWord word ∧ ∀ c ∈ rest.head?, isBlank c := by
  obtain ⟨gap, rfl, hg, hw, hr⟩ := word?_eq_some h
  exact ⟨gap, rfl, isGap_of_isBlank_head hg hw.isBlank_head hw.1 hc, hw, hr⟩

end

variable {line : String} {cs : List Char} {t : Table}

theorem Spelled.read? (h : Spelled cs t) : Table.read? cs = some t := by
  obtain @⟨name, start, stop, steps, source, gap₁, gap₂, gap₃, gap₄, x, y, n, hwords, hgaps,
    hsource, hx, hy, hn, hne⟩ := h
  simp only [List.forall_mem_cons] at hwords hgaps
  obtain ⟨hname, hstart, hstop, hsteps, -⟩ := hwords
  obtain ⟨hgap₁, hgap₂, hgap₃, hgap₄, -⟩ := hgaps
  have hsteps := word?_append hgap₃.2 hsteps (hgap₄.isBlank_head source)
  have hstop := word?_append hgap₂.2 hstop (hgap₃.isBlank_head (steps ++ (gap₄ ++ source)))
  have hstart := word?_append hgap₁.2 hstart
    (hgap₂.isBlank_head (stop ++ (gap₃ ++ (steps ++ (gap₄ ++ source)))))
  have hname := word?_append (List.forall_mem_nil _) hname
    (hgap₁.isBlank_head (start ++ (gap₂ ++ (stop ++ (gap₃ ++ (steps ++ (gap₄ ++ source)))))))
  have hend := trim_append hgap₄.2 hsource (List.forall_mem_nil _)
  rw [List.append_nil] at hend
  rw [List.nil_append] at hname
  simp only [List.append_assoc, Table.read?, hname, hstart, hstop, hsteps, hend,
    Option.bind_eq_bind, Option.bind_some, List.isEmpty_eq_false_iff.mpr hsource.1, hx, hy, hn, hne,
    if_false]
  rfl

theorem spelled_of_read? (htrim : IsTrimmed cs) (h : Table.read? cs = some t) : Spelled cs t := by
  simp only [Table.read?, Option.bind_eq_bind, Option.bind_eq_some_iff] at h
  obtain ⟨⟨name, r₁⟩, hname, ⟨start, r₂⟩, hstart, ⟨stop, r₃⟩, hstop, ⟨steps, r₄⟩, hsteps, h⟩ := h
  obtain ⟨gap, rfl, hgap, hname, hr₁⟩ := word?_eq_some hname
  obtain ⟨gap₁, rfl, hgap₁, hstart, hr₂⟩ := word?_eq_some_of_isBlank_head hstart hr₁
  obtain ⟨gap₂, rfl, hgap₂, hstop, hr₃⟩ := word?_eq_some_of_isBlank_head hstop hr₂
  obtain ⟨gap₃, rfl, hgap₃, hsteps, hr₄⟩ := word?_eq_some_of_isBlank_head hsteps hr₃
  obtain rfl := htrim.eq_nil_of_blank_before hgap
  split at h
  · cases h
  next hempty =>
  simp only [Option.bind_eq_some_iff] at h
  obtain ⟨x, hx, y, hy, n, hn, h⟩ := h
  split at h
  · cases h
  next hne =>
  cases h
  obtain ⟨gap₄, after, hr, hgap₄, hsource, hafter⟩ :=
    exists_gap_trim (mt List.isEmpty_iff.mpr hempty) hr₄
  simp only at hr hsource
  generalize trim r₄ = source at hr hsource ⊢
  subst hr
  have hcs : [] ++ (name ++ (gap₁ ++ (start ++ (gap₂ ++ (stop ++ (gap₃ ++ (steps ++
      (gap₄ ++ source ++ after)))))))) =
      name ++ gap₁ ++ start ++ gap₂ ++ stop ++ gap₃ ++ steps ++ gap₄ ++ source ++ after := by
    simp only [List.nil_append, List.append_assoc]
  rw [hcs] at htrim ⊢
  obtain rfl := htrim.eq_nil_of_blank_after hafter
  rw [List.append_nil]
  exact .intro (by simp [*]) (by simp [*]) hsource hx hy hn hne

/-- The table is what is read behind the word. -/
theorem written_iff (hl : line.toList = ':' :: cs) : t.Written line ↔
    cs.takeWhile (!isBlank ·) = "table".toList ∧
      Table.read? (trim (cs.dropWhile (!isBlank ·))) = some t := by
  constructor
  · rintro ⟨argument, hline, ht⟩
    have ha : argument ≠ [] := by
      rintro rfl
      cases ht.read?
    obtain ⟨hword, rfl⟩ := (commands_iff hl (by decide) ha).mp hline
    exact ⟨hword, ht.read?⟩
  · rintro ⟨hword, ht⟩
    have ha : trim (cs.dropWhile (!isBlank ·)) ≠ [] := by
      intro hnil
      rw [hnil] at ht
      cases ht
    have hline := (commands_iff hl (by decide) ha).mpr ⟨hword, rfl⟩
    exact ⟨_, hline, spelled_of_read? (isTrimmed_trim ha) ht⟩

theorem exists_of_written (h : t.Written line) : ∃ cs, line.toList = ':' :: cs := by
  obtain ⟨argument, ⟨gap, after, -, -, -, hl⟩, -⟩ := h
  exact ⟨_, hl⟩

end Table

/-- A line that seeds the random source. -/
def Seeds (line : String) (seed : UInt64) : Prop :=
  ∃ argument, Commands line "seed".toList argument ∧ Decimal.readWord? argument = some seed

theorem seeds_of_readWord? {line : String} {cs : List Char} {seed : UInt64}
    (hl : line.toList = ':' :: cs) (hword : cs.takeWhile (!isBlank ·) = "seed".toList)
    (h : Decimal.readWord? (trim (cs.dropWhile (!isBlank ·))) = some seed) : Seeds line seed := by
  have ha : trim (cs.dropWhile (!isBlank ·)) ≠ [] := by
    intro hnil
    rw [hnil] at h
    cases h
  exact ⟨_, (commands_iff hl (by decide) ha).mpr ⟨hword, rfl⟩, h⟩

/-- A line that is no command and has a `:=`: the first one stands between a name and a source. -/
def Assigns (line name source : String) : Prop :=
  line.toList.head? ≠ some ':' ∧ ∃ before after, ¬ [':', '='] <:+: before ∧
    line.toList = before ++ ':' :: '=' :: after ∧
    name = String.ofList (trim before) ∧ source = String.ofList (trim after)

/-- A line that is no command and has no `:=`. -/
def IsExpression (line : String) : Prop :=
  line.toList.head? ≠ some ':' ∧ ¬ [':', '='] <:+: line.toList

section
variable {s : Session} {line name source : String} {cs before after : List Char}

theorem infix_cons_iff {c : Char} :
    [':', '='] <:+: c :: cs ↔ (c = ':' ∧ ∃ rest, cs = '=' :: rest) ∨ [':', '='] <:+: cs := by
  rw [List.infix_cons_iff, List.cons_prefix_cons]
  refine or_congr_left (and_congr eq_comm ?_)
  constructor
  · rintro ⟨rest, rfl⟩
    exact ⟨rest, rfl⟩
  · rintro ⟨rest, rfl⟩
    exact ⟨rest, rfl⟩

theorem splitAssignment?_eq_none (h : splitAssignment? cs = none) : ¬ [':', '='] <:+: cs := by
  fun_induction splitAssignment? cs with
  | case1 cs => cases h
  | case2 => decide
  | case3 c cs hne ih =>
    rw [infix_cons_iff]
    rintro (⟨rfl, rest, rfl⟩ | hcs)
    · exact hne rest rfl rfl
    · exact ih (Option.map_eq_none_iff.mp h) hcs

theorem splitAssignment?_eq_some (h : splitAssignment? cs = some (before, after)) :
    ¬ [':', '='] <:+: before ∧ cs = before ++ ':' :: '=' :: after := by
  fun_induction splitAssignment? cs generalizing before with
  | case1 cs =>
    cases h
    exact ⟨by decide, rfl⟩
  | case2 => cases h
  | case3 c cs hne ih =>
    obtain ⟨⟨before, after⟩, hcs, h⟩ := Option.map_eq_some_iff.mp h
    cases h
    obtain ⟨hbefore, rfl⟩ := ih hcs
    refine ⟨?_, rfl⟩
    rw [infix_cons_iff]
    rintro (⟨rfl, rest, rfl⟩ | h)
    · exact hne _ rfl rfl
    · exact hbefore h

/-- The first `:=` is the one that a text is split at. -/
theorem splitAssignment?_append (h : ¬ [':', '='] <:+: before) (after : List Char) :
    splitAssignment? (before ++ ':' :: '=' :: after) = some (before, after) := by
  induction before with
  | nil => rfl
  | cons c before ih =>
    rw [infix_cons_iff, not_or] at h
    have hne : ∀ rest, c = ':' → before ++ ':' :: '=' :: after = '=' :: rest → False := by
      rintro rest rfl hr
      cases before with
      | nil => cases hr
      | cons d before =>
        cases hr
        exact h.1 ⟨rfl, before, rfl⟩
    rw [List.cons_append, splitAssignment?.eq_3 _ _ hne, ih h.2]
    rfl

/-- The two sides of a line that is an assignment. -/
def assignment? (line : String) : Option (String × String) :=
  if line.toList.head? = some ':' then none
  else (splitAssignment? line.toList).map fun (name, source) =>
    (String.ofList (trim name), String.ofList (trim source))

theorem assignment?_eq_some_iff :
    assignment? line = some (name, source) ↔ Assigns line name source := by
  rw [assignment?]
  constructor
  · intro h
    split at h
    · cases h
    · next hc =>
      obtain ⟨⟨before, after⟩, hsplit, h⟩ := Option.map_eq_some_iff.mp h
      cases h
      obtain ⟨hbefore, hline⟩ := splitAssignment?_eq_some hsplit
      exact ⟨hc, before, after, hbefore, hline, rfl, rfl⟩
  · rintro ⟨hc, before, after, hbefore, hline, rfl, rfl⟩
    rw [if_neg hc, hline, splitAssignment?_append hbefore]
    rfl

theorem Assigns.unique {name' source' : String} (h : Assigns line name source)
    (h' : Assigns line name' source') : name' = name ∧ source' = source := by
  have hs := (assignment?_eq_some_iff.mpr h').symm.trans (assignment?_eq_some_iff.mpr h)
  exact Prod.mk.inj (Option.some.inj hs)

theorem IsExpression.not_assigns (h : IsExpression line) : ¬ Assigns line name source := by
  rintro ⟨-, before, after, -, hline, -⟩
  exact h.2 ⟨before, after, by simpa using hline.symm⟩

theorem line_cases (line : String) : (∃ cs, line.toList = ':' :: cs) ∨
    (∃ name source, Assigns line name source) ∨ IsExpression line := by
  by_cases hc : line.toList.head? = some ':'
  · obtain ⟨cs, hcs⟩ := List.head?_eq_some_iff.mp hc
    exact .inl ⟨cs, hcs⟩
  · refine .inr ?_
    cases h : splitAssignment? line.toList with
    | none => exact .inr ⟨hc, splitAssignment?_eq_none h⟩
    | some sides =>
      obtain ⟨hbefore, hline⟩ := splitAssignment?_eq_some h
      exact .inl ⟨_, _, hc, _, _, hbefore, hline, rfl, rfl⟩

/-! What is done with a line of each of the three. -/

theorem enter_command (hl : line.toList = ':' :: cs) (interrupted : Interrupts) :
    s.enter line interrupted = s.command cs interrupted := by
  simp only [enter, hl]

theorem enter_of_head?_ne (hc : line.toList.head? ≠ some ':') (interrupted : Interrupts) :
    s.enter line interrupted =
      match splitAssignment? line.toList with
      | some (name, source) =>
        s.assign (String.ofList (trim name)) (String.ofList (trim source))
      | none =>
        match s.evaluate line with
        | (.error reply, s) => (reply, s)
        | (.ok r, s) => (.lines [r.text], s) := by
  rw [enter]
  split
  · next cs h => exact absurd (congrArg List.head? h) hc
  · rfl

theorem enter_assignment (h : Assigns line name source) (interrupted : Interrupts) :
    s.enter line interrupted = s.assign name source := by
  obtain ⟨hc, before, after, hbefore, hline, rfl, rfl⟩ := h
  rw [enter_of_head?_ne hc, hline, splitAssignment?_append hbefore]

theorem enter_expression (h : IsExpression line) (interrupted : Interrupts) :
    s.enter line interrupted =
      match s.evaluate line with
      | (.error reply, s) => (reply, s)
      | (.ok r, s) => (.lines [r.text], s) := by
  have hsplit : splitAssignment? line.toList = none := by
    cases hs : splitAssignment? line.toList with
    | none => rfl
    | some sides =>
      obtain ⟨-, hline⟩ := splitAssignment?_eq_some hs
      exact absurd ⟨sides.1, sides.2, by simpa using hline.symm⟩ h.2
  rw [enter_of_head?_ne h.1, hsplit]

end

end Session
end FormulaMachine
