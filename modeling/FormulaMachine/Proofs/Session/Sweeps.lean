import FormulaMachine.Proofs.Compilation
import FormulaMachine.Proofs.Session.Bindings
import FormulaMachine.Proofs.Session.Tables

/-!
What the rows of a table differ in. Any word can be swept, but an expression reads nothing but
variable names, so a sweep over another word makes every row the same.
-/
namespace FormulaMachine

namespace Phrase

/-- Only the names of a phrase are read. -/
theorem close_congr {value value' : String → Float} {x : Phrase}
    (h : ∀ n ∈ x.names, value n = value' n) : x.close value = x.close value' := by
  induction x with
  | literal | pi | euler => rfl
  | name c n => rw [close, close, h n (List.mem_singleton_self n)]
  | call c f x ih | negation c x ih => rw [close, close, ih h]
  | call₂ c f x y ihx ihy | binary c op x y ihx ihy =>
    obtain ⟨hx, hy⟩ := List.forall_mem_append.mp h
    rw [close, close, ihx hx, ihy hy]
  | choice c x y z ihx ihy ihz =>
    obtain ⟨hxy, hz⟩ := List.forall_mem_append.mp h
    obtain ⟨hx, hy⟩ := List.forall_mem_append.mp hxy
    rw [close, close, ihx hx, ihy hy, ihz hz]

theorem evaluate_congr {vars vars' defined : List (String × Float)} {x : Phrase}
    (h : ∀ n ∈ x.names, vars.lookup n = vars'.lookup n) (random : RandomSource) :
    x.evaluate (vars ++ defined) random = x.evaluate (vars' ++ defined) random := by
  have hvalue : ∀ n ∈ x.names, ((vars ++ defined).lookup n).getD 0 =
      ((vars' ++ defined).lookup n).getD 0 := fun n hn => by
    rw [List.lookup_append, List.lookup_append, h n hn]
  rw [evaluate, evaluate, close_congr hvalue]

/-- Variables that give the names of the phrases the same values can stand for one another. -/
theorem evaluateAfter_congr {main : Phrase} {vars vars' defined : List (String × Float)}
    {sawNaN : Bool} {random : RandomSource} {xs : List (String × Phrase)}
    (hmain : ∀ n ∈ main.names, vars.lookup n = vars'.lookup n)
    (hxs : ∀ d ∈ xs, ∀ n ∈ d.2.names, vars.lookup n = vars'.lookup n) :
    main.evaluateAfter vars defined sawNaN random xs =
      main.evaluateAfter vars' defined sawNaN random xs := by
  induction xs generalizing defined sawNaN random with
  | nil => simp only [evaluateAfter, evaluate_congr hmain]
  | cons d xs ih =>
    obtain ⟨hd, hxs⟩ := List.forall_mem_cons.mp hxs
    simp only [evaluateAfter, evaluate_congr hd, ih hxs]

end Phrase

/-- What a script looks up are variable names. -/
theorem Script.Says.isVariableName {s : Script} {xs : List (String × Phrase)} {x : Phrase}
    (h : s.Says xs x) : (∀ n ∈ x.names, IsVariableName n) ∧
      ∀ d ∈ xs, ∀ n ∈ d.2.names, IsVariableName n := by
  induction h with
  | main hx => exact ⟨fun n hn => Segment.isVariableName hx hn, nofun⟩
  | definition hy _ ih =>
    exact ⟨ih.1, List.forall_mem_cons.mpr ⟨fun n hn => Segment.isVariableName hy hn, ih.2⟩⟩

namespace Session

section
variable {s : Session} {name n : String} {bindings : List (String × Float)}

/-- The names that can be assigned to are the variable names. -/
theorem isAssignable_iff (name : String) : isAssignable name = true ↔ IsVariableName name := by
  refine ⟨isVariableName_of_isAssignable, fun h => ?_⟩
  have hc := Compiler.compile_of_isVariableName (c := { discover := true }) h rfl
  simp only [isAssignable, hc]
  exact beq_self_eq_true [name]

theorem lookup_bind_self (bindings : List (String × Float)) (name : String) (x : Float) :
    (bind bindings name x).lookup name = some x := by
  induction bindings with
  | nil => simp [bind]
  | cons b bindings ih =>
    rw [bind]
    split
    · simp
    · next hb =>
      have hne : (name == b.1) = false := by
        rw [beq_eq_false_iff_ne]
        rintro rfl
        exact hb (beq_self_eq_true _)
      rw [List.lookup_cons, hne]
      exact ih

/-- Another name keeps the value that it has or has not. -/
theorem lookup_bind_of_ne (hn : n ≠ name) (bindings : List (String × Float)) (x : Float) :
    (bind bindings name x).lookup n = bindings.lookup n := by
  have hne : (n == name) = false := by simpa using hn
  induction bindings with
  | nil => simp [bind, List.lookup_cons, hne]
  | cons b bindings ih =>
    rw [bind]
    split
    · next hb => rw [List.lookup_cons, List.lookup_cons, hne, eq_of_beq hb, hne]
    · rw [List.lookup_cons, List.lookup_cons, ih]

theorem zip_names_values (s : Session) : s.names.zip s.values = s.bindings := by
  rw [names, values, List.zip_map']
  exact List.map_id' _

theorem length_values (s : Session) : s.values.length = s.names.length := by
  rw [values, names, List.length_map, List.length_map]

/-- A bound name shows the value that is looked up. -/
theorem evaluate_name_of_lookup (hname : IsVariableName name) {x : Float}
    (h : s.bindings.lookup name = some x) :
    s.evaluate name = (.ok { value := if x.isNaN then 0 else x, sawNaN := x.isNaN }, s) := by
  rw [← s.zip_names_values] at h
  cases hi : s.names.idxOf? name with
  | none =>
    rw [lookup_zip_none (List.idxOf?_eq_none_iff.mp hi)] at h
    cases h
  | some i =>
    rw [lookup_zip hi s.length_values.symm] at h
    exact evaluate_name hname hi h

/-- An expression is evaluated as it reads, with the bound values. -/
theorem evaluate_eq_evaluateAfter {source : String} {f : Formula}
    (hc : compile s.names source = .ok f) {xs : List (String × Phrase)} {x : Phrase}
    (hrun : ∀ values random, values.length = f.vars.length →
      f.run values random = x.evaluateAfter (f.vars.zip values) [] false random xs) :
    s.evaluate source =
      let out := x.evaluateAfter s.bindings [] false s.random xs
      (out.1.mapError (.failed source), { s with random := out.2 }) := by
  obtain ⟨-, hvars⟩ := compiles_of_compile hc
  have hr := hrun s.values s.random (by rw [hvars, s.length_values])
  rw [hvars, s.zip_names_values] at hr
  rw [← hr]
  rcases hf : f.run s.values s.random with ⟨e | r, random⟩
  · exact evaluate_of_run_error hc hf
  · exact evaluate_of_run hc hf

end

namespace Table

variable {t : Table} {s : Session} {line : String} {interrupted : Interrupts}
  {lines : List String}

/-- Rows are made of what has been compiled. -/
theorem exists_compile_of_lines (h : t.Written line)
    (hl : (s.enter line interrupted).1 = .lines lines) :
    ∃ f, ∀ k random, compile (t.row s k random).names t.source = .ok f := by
  cases hc : compile (t.row s 0 s.random).names t.source with
  | error reply =>
    rw [enter_of_compile_error h interrupted hc] at hl
    obtain rfl : reply = .lines lines := hl
    exact absurd hc compile_ne_lines
  | ok f => exact ⟨f, compile_row hc⟩

/-- The rows that are shown are those before the first interrupt, each with the text of what it comes
to. A line behind them says that the table has been interrupted. -/
theorem exists_rows_of_lines (h : t.Written line)
    (hl : (s.enter line interrupted).1 = .lines lines) :
    ∃ n, (∀ k < n, interrupted k = false) ∧
      (n = t.steps + 1 ∨ n ≤ t.steps ∧ interrupted n = true) ∧
      lines.length = (if n ≤ t.steps then n + 1 else n) ∧
      (n ≤ t.steps → lines[n]? = some "BREAK") ∧
      ∀ k < n, ∃ r, lines[k]? = some (Table.line (t.value k) r) ∧
        ((t.row s k (t.evaluateRows s k).2).evaluate t.source).1 = .ok r := by
  obtain ⟨f, hf⟩ := exists_compile_of_lines h hl
  rw [enter_of_compile h interrupted (hf 0 s.random)] at hl
  have hgoing {k : Nat} (hk : k < cutoff interrupted 0 (t.steps + 1)) : interrupted k = false :=
    interrupted_of_lt_cutoff (Nat.zero_le k) hk
  have hcases := cutoff_cases interrupted 0 (t.steps + 1)
  rw [Nat.zero_add] at hcases
  generalize cutoff interrupted 0 (t.steps + 1) = n at hl hgoing hcases
  rcases hrows : t.evaluateRows s n with ⟨reply | results, random⟩
  · simp only [hrows] at hl
    obtain rfl : reply = .lines lines := hl
    obtain ⟨e, he⟩ := error_of_evaluateRows (hf 0 s.random) hrows
    cases he
  simp only [hrows, Reply.lines.injEq] at hl
  have hlength : (t.lines results).length = n :=
    (length_lines t results).trans (length_of_evaluateRows hrows)
  refine ⟨n, fun k hk => hgoing hk, hcases.imp_right (.imp_left Nat.le_of_lt_succ), ?_,
    fun hn => ?_, fun k hk => ?_⟩
  · rw [← hl, List.length_append, hlength]
    split <;> simp <;> omega
  · rw [← hl, if_pos (by omega), ← hlength, List.getElem?_concat_length]
  · obtain ⟨r, hget, he⟩ := exists_row_of_evaluateRows hrows hk
    refine ⟨r, ?_, he⟩
    rw [← hl, List.getElem?_append_left (by omega), Table.lines, List.getElem?_mapIdx, hget]
    rfl

/-- A row evaluates its expression as it reads, and the swept name has the value of the row. So a
name that can be assigned to reads that value. A word that cannot is read by no expression, and the
expression comes to the same in every row. Each line shows what its row comes to, up to an
interrupt. -/
theorem enter_table_name (h : t.Written line)
    (hl : (s.enter line interrupted).1 = .lines lines) :
    ∃ script xs x, Script.Written 0 t.source.toList script ∧ script.Says xs x ∧
      (∀ k random, (t.row s k random).evaluate t.source =
          let out := x.evaluateAfter (t.row s k random).bindings [] false random xs
          (out.1.mapError (.failed t.source), { t.row s k random with random := out.2 })) ∧
      (∀ k random, (t.row s k random).bindings.lookup t.name = some (t.value k)) ∧
      (isAssignable t.name = true ↔ IsVariableName t.name) ∧
      (isAssignable t.name = true → ∀ k random, (t.row s k random).evaluate t.name =
        (.ok { value := if (t.value k).isNaN then 0 else t.value k, sawNaN := (t.value k).isNaN },
          t.row s k random)) ∧
      (isAssignable t.name = false →
        t.name ∉ x.names ∧ (∀ d ∈ xs, t.name ∉ d.2.names) ∧
        ∀ j k random, x.evaluateAfter (t.row s j random).bindings [] false random xs =
          x.evaluateAfter (t.row s k random).bindings [] false random xs) ∧
      ∃ n, (∀ k < n, interrupted k = false) ∧
        (n = t.steps + 1 ∨ n ≤ t.steps ∧ interrupted n = true) ∧
        lines.length = (if n ≤ t.steps then n + 1 else n) ∧
        (n ≤ t.steps → lines[n]? = some "BREAK") ∧
        ∀ k < n, ∃ r, lines[k]? = some (Table.line (t.value k) r) ∧
          ((t.row s k (t.evaluateRows s k).2).evaluate t.source).1 = .ok r := by
  obtain ⟨f, hf⟩ := exists_compile_of_lines h hl
  obtain ⟨script, xs, x, hw, hsays, hrun⟩ :=
    Compiler.says_of_compile (compiles_of_compile (hf 0 s.random)).1
  have hlookup (k : Nat) (random : RandomSource) :
      (t.row s k random).bindings.lookup t.name = some (t.value k) := lookup_bind_self ..
  refine ⟨script, xs, x, hw, hsays, fun k random => evaluate_eq_evaluateAfter (hf k random) hrun,
    hlookup, isAssignable_iff t.name, fun ha k random => ?_, fun ha => ?_,
    exists_rows_of_lines h hl⟩
  · exact evaluate_name_of_lookup ((isAssignable_iff _).mp ha) (hlookup k random)
  · have hne {n : String} (hn : IsVariableName n) : n ≠ t.name := by
      rintro rfl
      rw [(isAssignable_iff _).mpr hn] at ha
      cases ha
    obtain ⟨hx, hxs⟩ := hsays.isVariableName
    have hsame (j k : Nat) (random : RandomSource) {n : String} (hn : IsVariableName n) :
        (t.row s j random).bindings.lookup n = (t.row s k random).bindings.lookup n := by
      rw [row, row, lookup_bind_of_ne (hne hn), lookup_bind_of_ne (hne hn)]
    refine ⟨fun hm => hne (hx _ hm) rfl, fun d hd hm => hne (hxs d hd _ hm) rfl,
      fun j k random => ?_⟩
    exact Phrase.evaluateAfter_congr (fun n hn => hsame j k random (hx n hn))
      fun d hd n hn => hsame j k random (hxs d hd n hn)

/-- A table over the bound variable is written with blanks of two kinds. -/
theorem enter_table_name_x :
    let s : Session := { bindings := [("x", 7), ("y", 0.5)], random := .cycle [],
                         seeded := fun _ => .cycle [] }
    let t : Table := { name := "x", start := 0, stop := 4, steps := 2, source := "y: x; x * y" }
    let line := ":table x 0\t4 2 y: x; x * y"
    t.Written line ∧ (∃ lines, (s.enter line).1 = .lines lines) ∧ isAssignable t.name = true ∧
      ∀ k random, (t.row s k random).evaluate t.name =
        (.ok { value := if (t.value k).isNaN then 0 else t.value k, sawNaN := (t.value k).isNaN },
          t.row s k random) := by
  intro s t line
  have hspelled : Spelled ("x".toList ++ [' '] ++ "0".toList ++ ['\t'] ++ "4".toList ++ [' '] ++
      "2".toList ++ [' '] ++ t.source.toList) _ :=
    .intro (x := 0) (y := 4) (n := 2) (by decide) (by decide) (by decide) (by decide)
      (by decide +kernel) (by decide) (by decide)
  rw [String.ofList_toList, String.ofList_toList] at hspelled
  have hw : t.Written line :=
    ⟨_, ⟨[' '], [], by decide, by decide, List.forall_mem_nil _, by decide⟩, hspelled⟩
  have hrows : (t.evaluateRows s (t.steps + 1)).1.isOk = true := by decide +kernel
  obtain ⟨results, hrows⟩ := Except.exists_ok_of_isOk hrows
  have hi : ∀ k ≤ t.steps, (false : Interrupts) k = false := fun _ _ => rfl
  have henter := enter_eq_evaluateRows (s := s) hw hi
  have hl : (s.enter line).1 = .lines (t.lines results) := by
    rw [henter, ← Prod.eta (t.evaluateRows s (t.steps + 1)), hrows]
  obtain ⟨script, xs, x, -, -, -, -, -, hname, -⟩ := enter_table_name hw hl
  have ha : isAssignable t.name = true := by decide +kernel
  exact ⟨hw, ⟨_, hl⟩, ha, hname ha⟩

/-- No value can be assigned to the constant, and it stays what it is in a table over it. -/
theorem enter_table_pi :
    let s : Session := { random := .cycle [], seeded := fun _ => .cycle [] }
    let t : Table := { name := "pi", start := 0, stop := 1, steps := 1, source := "pi" }
    t.Written ":table pi 0 1 1 pi" ∧ isAssignable t.name = false ∧
      (s.enter ":table pi 0 1 1 pi").1 =
        .lines ["           0 3.141592653589793", "           1 3.141592653589793"] := by
  intro s t
  have hspelled : Spelled ("pi".toList ++ [' '] ++ "0".toList ++ [' '] ++ "1".toList ++ [' '] ++
      "1".toList ++ [' '] ++ t.source.toList) _ :=
    .intro (x := 0) (y := 1) (n := 1) (by decide) (by decide) (by decide) (by decide)
      (by decide +kernel) (by decide) (by decide)
  rw [String.ofList_toList] at hspelled
  have hw : t.Written ":table pi 0 1 1 pi" :=
    ⟨_, ⟨[' '], [], by decide, by decide, List.forall_mem_nil _, by decide⟩, hspelled⟩
  have hrows : (t.evaluateRows s (t.steps + 1)).1.toOption.map t.lines =
      some ["           0 3.141592653589793", "           1 3.141592653589793"] := by
    decide +kernel
  obtain ⟨results, hrows, hlines⟩ := Option.map_eq_some_iff.mp hrows
  have hrows := Except.ok_of_toOption hrows
  have hi : ∀ k ≤ t.steps, (false : Interrupts) k = false := fun _ _ => rfl
  have henter := enter_eq_evaluateRows (s := s) hw hi
  refine ⟨hw, by decide +kernel, ?_⟩
  rw [henter, ← Prod.eta (t.evaluateRows s (t.steps + 1)), hrows, ← hlines]

end Table
end Session
end FormulaMachine
