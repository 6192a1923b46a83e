import FormulaMachine.Proofs.Session.Frame

/-!
A table is repeated evaluation: a row is what the expression comes to where the variable has the
value of the row, and the random source goes from row to row.
-/
namespace FormulaMachine.Session.Table

/-- The session that a row is evaluated in. -/
def row (t : Table) (s : Session) (k : Nat) (random : RandomSource) : Session :=
  { s with bindings := bind s.bindings t.name (t.value k), random }

/-- The results of the first `k` rows, up to the first that has none. -/
def evaluateRows (t : Table) (s : Session) : Nat → Except Reply (List Evaluation) × RandomSource
  | 0 => (.ok [], s.random)
  | k + 1 =>
    match t.evaluateRows s k with
    | (.error reply, random) => (.error reply, random)
    | (.ok results, random) =>
      match (t.row s k random).evaluate t.source with
      | (.error reply, row) => (.error reply, row.random)
      | (.ok r, row) => (.ok (results ++ [r]), row.random)

/-- The first row from `k` on that is interrupted, or the end of the `left` rows. -/
def cutoff (interrupted : Interrupts) (k : Nat) : Nat → Nat
  | 0 => k
  | left + 1 => if interrupted k then k else cutoff interrupted (k + 1) left

/-- One line for each result. -/
def lines (t : Table) (results : List Evaluation) : List String :=
  results.mapIdx fun k r => line (t.value k) r

section
variable {t : Table} {s : Session} {f : Formula} {k : Nat} {random : RandomSource}
  {results : List Evaluation} {reply : Reply}

theorem cutoff_succ (interrupted : Interrupts) (k left : Nat) :
    cutoff interrupted k (left + 1) =
      if interrupted k then k else cutoff interrupted (k + 1) left := rfl

theorem le_cutoff (interrupted : Interrupts) (k left : Nat) : k ≤ cutoff interrupted k left := by
  induction left generalizing k with
  | zero => exact Nat.le_refl k
  | succ left ih =>
    have := ih (k + 1)
    rw [cutoff_succ]
    split <;> omega

/-- Where a table stops, all its rows are there or it is interrupted. -/
theorem cutoff_cases (interrupted : Interrupts) (k left : Nat) :
    cutoff interrupted k left = k + left ∨
      cutoff interrupted k left < k + left ∧ interrupted (cutoff interrupted k left) = true := by
  induction left generalizing k with
  | zero => exact .inl rfl
  | succ left ih =>
    have := ih (k + 1)
    rw [cutoff_succ]
    split
    · next hk => exact .inr ⟨by omega, hk⟩
    · rwa [show k + 1 + left = k + (left + 1) by omega] at this

theorem interrupted_of_lt_cutoff {interrupted : Interrupts} {left j : Nat} (hk : k ≤ j)
    (hj : j < cutoff interrupted k left) : interrupted j = false := by
  induction left generalizing k with
  | zero => exact absurd hj (Nat.not_lt.mpr hk)
  | succ left ih =>
    rw [cutoff_succ] at hj
    split at hj
    · omega
    · next hi =>
      rcases Nat.eq_or_lt_of_le hk with rfl | hk
      · exact Bool.eq_false_iff.mpr hi
      · exact ih hk hj

theorem cutoff_eq {interrupted : Interrupts} {left : Nat}
    (h : ∀ j, k ≤ j → j < k + left → interrupted j = false) :
    cutoff interrupted k left = k + left := by
  rcases cutoff_cases interrupted k left with hs | ⟨hlt, hi⟩
  · exact hs
  · rw [h _ (le_cutoff interrupted k left) hlt] at hi
    cases hi

/-- The names are the same in every row. -/
theorem names_row (t : Table) (s : Session) (k : Nat) (random : RandomSource) :
    (t.row s k random).names = t.names s :=
  (t.names_eq s (t.value k)).symm

theorem evaluateRows_succ (t : Table) (s : Session) (k : Nat) : t.evaluateRows s (k + 1) =
    match t.evaluateRows s k with
    | (.error reply, random) => (.error reply, random)
    | (.ok results, random) =>
      match (t.row s k random).evaluate t.source with
      | (.error reply, row) => (.error reply, row.random)
      | (.ok r, row) => (.ok (results ++ [r]), row.random) := rfl

theorem evaluateRows_of_error (h : t.evaluateRows s k = (.error reply, random)) (left : Nat) :
    t.evaluateRows s (k + left) = (.error reply, random) := by
  induction left with
  | zero => exact h
  | succ left ih => rw [← Nat.add_assoc, evaluateRows_succ, ih]

theorem evaluateRows_of_row_error {s' : Session} {n : Nat}
    (h : t.evaluateRows s k = (.ok results, random))
    (hr : (t.row s k random).evaluate t.source = (.error reply, s')) (hn : k < n) :
    t.evaluateRows s n = (.error reply, s'.random) := by
  have hsucc : t.evaluateRows s (k + 1) = (.error reply, s'.random) := by
    simp only [evaluateRows_succ, h, hr]
  obtain ⟨left, rfl⟩ := Nat.exists_eq_add_of_le hn
  exact evaluateRows_of_error hsucc left

theorem length_of_evaluateRows (h : t.evaluateRows s k = (.ok results, random)) :
    results.length = k := by
  induction k generalizing results random with
  | zero =>
    cases h
    rfl
  | succ k ih =>
    rw [evaluateRows_succ] at h
    split at h
    · cases h
    next results random hk =>
    split at h
    · cases h
    · cases h
      rw [List.length_append, ih hk]
      rfl

/-- Each of the results is what its row comes to with the random source that the rows before have
left. -/
theorem exists_row_of_evaluateRows {n : Nat} (h : t.evaluateRows s n = (.ok results, random))
    (hk : k < n) : ∃ r, results[k]? = some r ∧
      ((t.row s k (t.evaluateRows s k).2).evaluate t.source).1 = .ok r := by
  induction n generalizing results random with
  | zero => exact absurd hk (Nat.not_lt_zero k)
  | succ n ih =>
    rw [evaluateRows_succ] at h
    split at h
    · cases h
    next results random hn =>
    have hl := length_of_evaluateRows hn
    split at h
    · cases h
    · next r row hr =>
      cases h
      rcases Nat.lt_succ_iff_lt_or_eq.mp hk with hk | rfl
      · obtain ⟨r, hget, he⟩ := ih hn hk
        exact ⟨r, by rw [List.getElem?_append_left (by omega), hget], he⟩
      · refine ⟨r, by rw [← hl, List.getElem?_concat_length], ?_⟩
        rw [hn]
        exact congrArg Prod.fst hr

theorem length_lines (t : Table) (results : List Evaluation) :
    (t.lines results).length = results.length :=
  List.length_mapIdx

theorem lines_append_singleton (t : Table) (results : List Evaluation) (r : Evaluation) :
    t.lines (results ++ [r]) = t.lines results ++ [line (t.value results.length) r] := by
  simp [lines, List.mapIdx_append]

/-! What has been compiled once runs in each row as it is evaluated there. -/

section
variable (hf : compile (t.row s 0 s.random).names t.source = .ok f)
include hf

theorem compile_row (k : Nat) (random : RandomSource) :
    compile (t.row s k random).names t.source = .ok f := by
  rw [names_row, ← names_row t s 0 s.random, hf]

theorem evaluateRows_of_run_error (h : t.evaluateRows s k = (.ok results, random)) {e : Error}
    {random' : RandomSource}
    (hr : f.run (t.row s k random).values random = (.error e, random')) :
    t.evaluateRows s (k + 1) = (.error (.failed t.source e), random') := by
  have he := evaluate_of_run_error (compile_row hf k random) hr
  simp only [evaluateRows_succ, h, he]

theorem evaluateRows_of_run (h : t.evaluateRows s k = (.ok results, random)) {r : Evaluation}
    {random' : RandomSource}
    (hr : f.run (t.row s k random).values random = (.ok r, random')) :
    t.evaluateRows s (k + 1) = (.ok (results ++ [r]), random') := by
  have he := evaluate_of_run (compile_row hf k random) hr
  simp only [evaluateRows_succ, h, he]

/-- Only a run can fail. -/
theorem failed_of_row_error {s' : Session}
    (hr : (t.row s k random).evaluate t.source = (.error reply, s')) :
    ∃ e, reply = .failed t.source e := by
  have hc := compile_row hf k random
  rcases evaluate_cases (t.row s k random) t.source with
    ⟨_, hc', -⟩ | ⟨_, e, _, -, -, he⟩ | ⟨_, _, _, -, -, he⟩
  · cases hc.symm.trans hc'
  · cases hr.symm.trans he
    exact ⟨e, rfl⟩
  · cases hr.symm.trans he

/-- So rows are without results only where one of them fails. -/
theorem error_of_evaluateRows {n : Nat} (h : t.evaluateRows s n = (.error reply, random)) :
    ∃ e, reply = .failed t.source e := by
  induction n with
  | zero => cases h
  | succ n ih =>
    rw [evaluateRows_succ] at h
    split at h
    · next hn =>
      cases h
      exact ih hn
    · split at h
      · next hr =>
        cases h
        exact failed_of_row_error hf hr
      · cases h

/-- After the first `k` rows the rows that are left come to what evaluating them comes to, as far as
they are not interrupted. The lines of the first rows are there already, so they stand in front.
The values that the rows hand on keep the place of the swept one, and nothing else of them changes. -/
theorem rows_of_evaluateRows (interrupted : Interrupts) (left : Nat) {place : Nat}
    {values : List Float}
    (hslot : ∀ x, values.set place x = (bind s.bindings t.name x).map (·.2))
    (h : t.evaluateRows s k = (.ok results, random)) :
    match t.rows f place interrupted values random k left with
    | (.error e, random') =>
      t.evaluateRows s (cutoff interrupted k left) = (.error (.failed t.source e), random')
    | (.ok lines, random') => ∃ results',
        t.evaluateRows s (cutoff interrupted k left) = (.ok results', random') ∧
        t.lines results ++ lines =
          t.lines results' ++ if cutoff interrupted k left < k + left then ["BREAK"] else [] := by
  induction left generalizing k results random values with
  | zero => exact ⟨results, h, by simp [cutoff]⟩
  | succ left ih =>
    by_cases hk : interrupted k
    · simp only [rows, cutoff_succ, hk, if_true]
      exact ⟨results, h, by rw [if_pos (by omega)]⟩
    rw [rows, cutoff_succ, if_neg hk, if_neg hk]
    have hvalues : values.set place (t.value k) = (t.row s k random).values := hslot (t.value k)
    have hslot (x : Float) : (values.set place (t.value k)).set place x =
        (bind s.bindings t.name x).map (·.2) := by rw [List.set_set, hslot]
    rcases hr : f.run (t.row s k random).values random with ⟨e | r, random'⟩
    · simp only [hvalues, hr]
      obtain ⟨more, hmore⟩ := Nat.exists_eq_add_of_le (le_cutoff interrupted (k + 1) left)
      rw [hmore]
      exact evaluateRows_of_error (evaluateRows_of_run_error hf h hr) more
    · have ih := ih hslot (evaluateRows_of_run hf h hr)
      simp only [hvalues] at ih ⊢
      rcases hrows : t.rows f place interrupted (t.row s k random).values random' (k + 1) left with
        ⟨e | lines, random''⟩
      · simp only [hrows] at ih
        simp only [hr, hrows, ih]
      · simp only [hrows] at ih
        obtain ⟨results', heval, hlines⟩ := ih
        simp only [hr, hrows]
        refine ⟨results', heval, ?_⟩
        rw [show k + (left + 1) = k + 1 + left by omega, ← hlines, lines_append_singleton,
          length_of_evaluateRows h, List.append_assoc]
        rfl

end

theorem enter_of_written {line : String} (h : t.Written line) (interrupted : Interrupts) :
    ∃ text, read? text = some t ∧ s.enter line interrupted = s.tabulate text interrupted := by
  obtain ⟨cs, hl⟩ := exists_of_written h
  obtain ⟨hword, hread⟩ := (written_iff hl).mp h
  refine ⟨_, hread, ?_⟩
  rw [enter_command hl, command, hword]
  simp only [String.ofList_toList]

/-- A table whose expression is compiled comes to the rows before the first interrupt. -/
theorem enter_of_compile {line : String} (h : t.Written line) (interrupted : Interrupts)
    (hc : compile (t.row s 0 s.random).names t.source = .ok f) : s.enter line interrupted =
      match t.evaluateRows s (cutoff interrupted 0 (t.steps + 1)) with
      | (.error reply, random) => (reply, { s with random })
      | (.ok results, random) =>
        (.lines (t.lines results ++
          if cutoff interrupted 0 (t.steps + 1) < t.steps + 1 then ["BREAK"] else []),
          { s with random }) := by
  have hnames : t.names s = (t.row s 0 s.random).names := t.names_eq s (t.value 0)
  obtain ⟨text, hread, henter⟩ := enter_of_written (s := s) h interrupted
  have hzero : t.evaluateRows s 0 = (.ok [], s.random) := rfl
  have hrows := rows_of_evaluateRows hc interrupted (t.steps + 1) (t.set_slot s) hzero
  rw [Nat.zero_add] at hrows
  simp only [henter, tabulate, hread, hnames, hc]
  rcases hr : t.rows f (t.slot s).1 interrupted (t.slot s).2 s.random 0 (t.steps + 1) with
    ⟨e | lines, random⟩
  · rw [hr] at hrows
    simp only [hrows]
  · rw [hr] at hrows
    obtain ⟨results, heval, hlines⟩ := hrows
    simp only [heval, ← hlines]
    rfl

theorem enter_of_compile_error {line : String} (h : t.Written line) (interrupted : Interrupts)
    (hc : compile (t.row s 0 s.random).names t.source = .error reply) :
    s.enter line interrupted = (reply, s) := by
  have hnames : t.names s = (t.row s 0 s.random).names := t.names_eq s (t.value 0)
  obtain ⟨text, hread, henter⟩ := enter_of_written (s := s) h interrupted
  simp only [henter, tabulate, hread, hnames, hc]

theorem enter_eq_evaluateRows {line : String} {interrupted : Interrupts} (h : t.Written line)
    (hi : ∀ k ≤ t.steps, interrupted k = false) :
    s.enter line interrupted =
      match t.evaluateRows s (t.steps + 1) with
      | (.error reply, random) => (reply, { s with random })
      | (.ok results, random) => (.lines (t.lines results), { s with random }) := by
  cases hc : compile (t.row s 0 s.random).names t.source with
  | error reply =>
    have he := evaluate_of_compile_error hc
    have hrows := evaluateRows_of_row_error rfl he (Nat.zero_lt_succ t.steps)
    rw [enter_of_compile_error h interrupted hc, hrows]
    rfl
  | ok f =>
    have hcutoff : cutoff interrupted 0 (t.steps + 1) = t.steps + 1 := by
      rw [cutoff_eq fun k _ hk => hi k (by omega), Nat.zero_add]
    rw [enter_of_compile h interrupted hc, hcutoff]
    simp only [Nat.lt_irrefl, if_false, List.append_nil]

/-- A table that nothing interrupts is as many evaluations as it has rows, up to the first that
fails. A source that is not compiled is answered as its evaluation is, and nothing is drawn. -/
theorem enter_table {line : String} {interrupted : Interrupts} (h : t.Written line)
    (hi : ∀ k ≤ t.steps, interrupted k = false) :
    (s.enter line interrupted =
      match t.evaluateRows s (t.steps + 1) with
      | (.error reply, random) => (reply, { s with random })
      | (.ok results, random) => (.lines (t.lines results), { s with random })) ∧
    (∀ k random, Sets t.name (t.value k) s.bindings (t.row s k random).bindings) ∧
    (∀ results random, t.evaluateRows s (t.steps + 1) = (.ok results, random) →
      (t.lines results).length = t.steps + 1) ∧
    (∀ reply, compile (t.row s 0 s.random).names t.source = .error reply →
      (t.row s 0 s.random).evaluate t.source = (.error reply, t.row s 0 s.random) ∧
      s.enter line interrupted = (reply, s)) ∧
    ∀ f k results random reply s', compile (t.row s 0 s.random).names t.source = .ok f →
      k ≤ t.steps → t.evaluateRows s k = (.ok results, random) →
      (t.row s k random).evaluate t.source = (.error reply, s') →
      ∃ e, reply = .failed t.source e ∧
        s.enter line interrupted = (.failed t.source e, { s with random := s'.random }) := by
  have heq := enter_eq_evaluateRows (s := s) h hi
  refine ⟨heq, fun k random => ?_, fun results random hr => ?_, fun reply hc => ?_,
    fun f k results random reply s' hf hk hr he => ?_⟩
  · exact sets_bind s.bindings t.name (t.value k)
  · rw [length_lines, length_of_evaluateRows hr]
  · have he := evaluate_of_compile_error hc
    rw [evaluateRows_of_row_error rfl he (Nat.zero_lt_succ t.steps)] at heq
    exact ⟨he, heq⟩
  · obtain ⟨e, rfl⟩ := failed_of_row_error hf he
    rw [evaluateRows_of_row_error hr he (Nat.lt_succ_of_le hk)] at heq
    exact ⟨e, rfl, heq⟩

end

/-- A variable stands in its place in every row and hides the definition of its name. Only the last
row draws. -/
theorem enter_table_shadowing :
    let s : Session := { bindings := [("x", 7), ("y", 0.5)],
                         random := .cycle [0x8000000000000000], seeded := fun _ => .cycle [] }
    let t : Table := { name := "x", start := 0, stop := 4, steps := 2,
                       source := "y: 3; if(x < 3, x + y, random(4))" }
    let line := ":table x 0 4 2 y: 3; if(x < 3, x + y, random(4))"
    t.Written line ∧ (∀ k ≤ t.steps, (fun _ => false : Interrupts) k = false) ∧
      ∃ random, s.enter line (fun _ => false : Interrupts) =
        (.lines ["           0 0.5", "           2 2.5", "           4 2"], { s with random }) ∧
        random.drawn = 1 := by
  intro s t line
  have hspelled : Spelled ("x".toList ++ [' '] ++ "0".toList ++ [' '] ++ "4".toList ++ [' '] ++
      "2".toList ++ [' '] ++ t.source.toList) _ :=
    .intro (x := 0) (y := 4) (n := 2) (by decide) (by decide) (by decide) (by decide)
      (by decide +kernel) (by decide) (by decide)
  rw [String.ofList_toList, String.ofList_toList] at hspelled
  have hw : t.Written line :=
    ⟨_, ⟨[' '], [], by decide, by decide, List.forall_mem_nil _, by decide⟩, hspelled⟩
  have hi : ∀ k ≤ t.steps, (fun _ => false : Interrupts) k = false := fun _ _ => rfl
  have hrows : (t.evaluateRows s (t.steps + 1)).1.toOption.map t.lines =
      some ["           0 0.5", "           2 2.5", "           4 2"] := by decide +kernel
  have hdrawn : (t.evaluateRows s (t.steps + 1)).2.drawn = 1 := by decide +kernel
  have henter := (enter_table (s := s) hw hi).1
  generalize t.evaluateRows s (t.steps + 1) = rows at hrows hdrawn henter
  obtain ⟨out, random⟩ := rows
  refine ⟨hw, hi, random, ?_, hdrawn⟩
  obtain ⟨results, hout, hlines⟩ := Option.map_eq_some_iff.mp hrows
  obtain rfl : out = .ok results := Except.ok_of_toOption hout
  rw [henter, ← hlines]

end FormulaMachine.Session.Table
