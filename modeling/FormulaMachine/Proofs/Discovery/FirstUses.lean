import FormulaMachine.Proofs.Constants
import FormulaMachine.Proofs.Discovery.Uses

/-!
The table of variables, told by the source. A name is a variable if its first use is not behind a
definition of it. Variables that are found later come behind the others, so a place in the table
never changes its name.
-/
namespace FormulaMachine

section
variable {α : Type} [BEq α]

/-- Duplicates are erased behind each element before what is left is gone through. -/
theorem eraseDups_induction {motive : List α → Prop} (nil : motive [])
    (cons : ∀ x xs, motive (xs.filter fun y => !y == x) → motive (x :: xs)) (xs : List α) :
    motive xs := by
  generalize hn : xs.length = n
  induction n using Nat.strongRecOn generalizing xs with
  | ind n ih =>
    cases xs with
    | nil => exact nil
    | cons x xs =>
      have hle := List.length_filter_le (fun y => !y == x) xs
      simp only [List.length_cons] at hn
      exact cons x xs (ih _ (by omega) _ rfl)

variable [LawfulBEq α]

theorem nodup_eraseDups (xs : List α) : xs.eraseDups.Nodup := by
  induction xs using eraseDups_induction with
  | nil => exact List.nodup_nil
  | cons x xs ih =>
    rw [List.eraseDups_cons, List.nodup_cons]
    exact ⟨by simp, ih⟩

theorem eraseDups_filter (p : α → Bool) (xs : List α) :
    (xs.filter p).eraseDups = xs.eraseDups.filter p := by
  induction xs using eraseDups_induction with
  | nil => rfl
  | cons x xs ih =>
    have hcomm : (xs.filter p).filter (fun y => !y == x) =
        (xs.filter fun y => !y == x).filter p := by
      rw [List.filter_filter, List.filter_filter]
      exact List.filter_congr fun y _ => Bool.and_comm _ _
    rw [List.eraseDups_cons]
    by_cases hp : p x
    · rw [List.filter_cons_of_pos hp, List.filter_cons_of_pos hp, List.eraseDups_cons, hcomm, ih]
    · have hx : (xs.filter p).filter (fun y => !y == x) = xs.filter p := by
        rw [List.filter_eq_self]
        intro y hy
        have hy := (List.mem_filter.mp hy).2
        simp only [Bool.not_eq_true', beq_eq_false_iff_ne]
        rintro rfl
        exact hp hy
      rw [List.filter_cons_of_neg hp, List.filter_cons_of_neg hp, ← ih, ← hcomm, hx]

end

/-- An element that is kept by a filter is found behind those in front of it that are kept. -/
theorem getElem?_filter_of_getElem? {α : Type} {p : α → Bool} {xs : List α} {a : Nat} {x : α}
    (h : xs[a]? = some x) (hx : p x) : (xs.filter p)[(xs.take a).countP p]? = some x := by
  induction xs generalizing a with
  | nil => cases h
  | cons y xs ih =>
    cases a with
    | zero =>
      obtain rfl := Option.some.inj h
      simp [hx]
    | succ a =>
      have ih := ih (a := a) h
      by_cases hy : p y
      · simpa [hy] using ih
      · simpa [hy] using ih

theorem exists_of_forall₂ {α β : Type} {R : α → β → Prop} {xs : List α} {ys : List β} {i : Nat}
    {y : β} (h : List.Forall₂ R xs ys) (hy : ys[i]? = some y) : ∃ x, xs[i]? = some x ∧ R x y := by
  induction h generalizing i with
  | nil => cases hy
  | @cons a b _ _ hab _ ih =>
    cases i with
    | zero =>
      obtain rfl := Option.some.inj hy
      exact ⟨a, rfl, hab⟩
    | succ i => exact ih hy

/-! ### The source -/

namespace Script

/-- The names that are looked up in the first segments, from left to right. -/
def namesBefore (s : Script) (k : Nat) : List String := (s.segments.take k).flatMap Segment.names

/-- The first segment that a name is looked up in. -/
def firstUse (s : Script) (name : String) : Nat := s.segments.findIdx (name ∈ ·.names)

/-- The names of the definitions in front of a segment. -/
def definedBefore (s : Script) (k : Nat) : List String := (s.definitions.take k).map (·.name)

/-- The names of the first segments, in the order of their first uses, without those that are listed
as variables and those that a definition before their first use has. -/
def found (s : Script) (vars : List String) (k : Nat) : List String :=
  (s.namesBefore k).eraseDups.filter fun name =>
    name ∉ vars ∧ name ∉ s.definedBefore (s.firstUse name)

variable {s : Script} {t : Segment} {vars : List String} {name : String} {k : Nat}

theorem nodup_found (s : Script) (vars : List String) (k : Nat) : (s.found vars k).Nodup :=
  (nodup_eraseDups _).filter _

theorem mem_found : name ∈ s.found vars k ↔
    name ∈ s.namesBefore k ∧ name ∉ vars ∧ name ∉ s.definedBefore (s.firstUse name) := by
  simp [found]

theorem namesBefore_succ (h : s.segments[k]? = some t) :
    s.namesBefore (k + 1) = s.namesBefore k ++ t.names := by
  rw [namesBefore, List.take_add_one, h, List.flatMap_append]
  simp [namesBefore]

/-- A name that has not been looked up before has its first use here. -/
theorem firstUse_eq (h : s.segments[k]? = some t) (hn : name ∈ t.names)
    (hnew : name ∉ s.namesBefore k) : s.firstUse name = k := by
  obtain ⟨hk, ht⟩ := List.getElem?_eq_some_iff.mp h
  refine (List.findIdx_eq hk).mpr ⟨by simpa [ht] using hn, ?_⟩
  intro j hj
  have hbefore : s.segments[j] ∈ s.segments.take k := by
    rw [List.mem_take_iff_getElem]
    exact ⟨j, by omega, rfl⟩
  simp only [decide_eq_false_iff_not]
  intro hmem
  exact hnew (List.mem_flatMap.mpr ⟨_, hbefore, hmem⟩)

/-- The first use is where the name has been looked up, or before. -/
theorem firstUse_lt (h : name ∈ s.namesBefore k) : s.firstUse name < k := by
  obtain ⟨t, ht, hn⟩ := List.mem_flatMap.mp h
  obtain ⟨j, hj, rfl⟩ := List.mem_take_iff_getElem.mp ht
  have hle : ¬ j < s.firstUse name := by
    intro hlt
    have hnot := List.not_of_lt_findIdx hlt
    simp only [hn, decide_true] at hnot
    cases hnot
  omega

theorem definedBefore_subset {j : Nat} (h : j ≤ k) : s.definedBefore j ⊆ s.definedBefore k :=
  List.map_subset _ (List.take_subset_take_left _ h)

/-- Of the names of one more segment those are new that no definition in front of it has and that
have not been found before. -/
theorem found_succ (h : s.segments[k]? = some t) : vars ++ s.found vars (k + 1) =
    (t.names.filter (· ∉ s.definedBefore k)).foldl Names.addVar (vars ++ s.found vars k) := by
  have hnew : (t.names.removeAll (s.namesBefore k)).filter
        (fun name => name ∉ vars ∧ name ∉ s.definedBefore (s.firstUse name)) =
      (t.names.filter (· ∉ s.definedBefore k)).filter (· ∉ vars ++ s.found vars k) := by
    rw [List.removeAll, List.filter_filter, List.filter_filter]
    refine List.filter_congr fun name hn => ?_
    by_cases hold : name ∈ s.namesBefore k
    · -- it has been found at its first use, or a definition in front of that has it
      have hle := Nat.le_of_lt (firstUse_lt hold)
      have hfirst : name ∉ s.definedBefore k → name ∉ s.definedBefore (s.firstUse name) :=
        fun hk hd => hk (s.definedBefore_subset hle hd)
      by_cases hk : name ∈ s.definedBefore k
      · simp [hold, hk]
      · simp [hold, hk, mem_found, hfirst hk]
    · rw [firstUse_eq h hn hold]
      simp [hold, mem_found]
  rw [Names.foldl_addVar, List.append_assoc, ← hnew, eraseDups_filter, found, namesBefore_succ h,
    List.eraseDups_append, List.filter_append, found]

end Script

/-! ### The tables on the way -/

namespace Names

/-- The table after the names have been looked up, one after another. -/
def lookUp (names : Names) (uses : List String) : Names :=
  uses.foldl (fun names name => (names.resolve name).2) names

variable {names : Names} {uses : List String}

theorem grows_resolve (names : Names) (name : String) : names.Grows (names.resolve name).2 := by
  rcases h : names.resolve name with ⟨_ | b, names'⟩
  · have hsame : names' = names := by
      simp only [resolve] at h
      split at h
      · cases h
      · split at h
        · cases h
        · split at h <;> cases h
          rfl
    rw [hsame]
    exact .refl _
  · exact grows_of_resolve h

/-- Looking up changes no place of the table. -/
theorem grows_lookUp (names : Names) (uses : List String) : names.Grows (names.lookUp uses) := by
  induction uses generalizing names with
  | nil => exact .refl _
  | cons name uses ih => exact (names.grows_resolve name).trans (ih _)

theorem lookUp_append (names : Names) (uses more : List String) :
    names.lookUp (uses ++ more) = (names.lookUp uses).lookUp more :=
  List.foldl_append

end Names

theorem Resolves.lookUp_eq {names names' : Names} {x : Phrase} {e : Expr}
    (h : Resolves names x e names') : names.lookUp x.names = names' := by
  induction h with
  | literal | pi | euler => rfl
  | name h => exact congrArg Prod.snd h
  | call _ ih | negation _ ih => exact ih
  | call₂ _ _ ihx ihy | binary _ _ ihx ihy => rw [Phrase.names, Names.lookUp_append, ihx, ihy]
  | choice _ _ _ ihx ihy ihz =>
    rw [Phrase.names, Names.lookUp_append, Names.lookUp_append, ihx, ihy, ihz]

namespace Script

variable {s : Script} {t : Segment} {e : Expr} {names final : Names}
  {trees : List (Segment × Expr)} {vars : List String} {k : Nat}

theorem vars_of_parse {table after : Names} (ht : s.segments[k]? = some t)
    (hp : Expr.parse t table = (.ok e, after)) (hvars : table.vars = vars ++ s.found vars k)
    (hrefs : table.refs = s.definedBefore k) :
    after.vars = vars ++ s.found vars (k + 1) := by
  obtain ⟨x, hx, hr⟩ := Expr.derives_of_parse hp
  rw [found_succ ht, hr.vars_eq, hvars, hrefs, Segment.names_of_derives hx]

/-- A segment is read with what has been found in the segments before it. -/
theorem Reads.vars_table (h : s.Reads names trees final) (hrefs : names.refs = [])
    (hk : k ≤ s.definitions.length) :
    (s.table names k).vars = names.vars ++ s.found names.vars k := by
  induction k with
  | zero => simp [table, found, namesBefore]
  | succ k ih =>
    have hlt : k < s.segments.length := by
      rw [length_segments]
      omega
    have ht := List.getElem?_eq_getElem hlt
    obtain ⟨e, htree⟩ := h.exists_tree ht
    obtain ⟨after, hparse, htable, -, ⟨d, -, hnext⟩ | ⟨hlast, -⟩⟩ := h.parse_table htree
    · rw [hrefs, List.nil_append] at htable
      have hafter := vars_of_parse ht hparse (ih (by omega)) htable
      rw [hnext]
      exact hafter
    · omega

theorem Reads.vars_final (h : s.Reads names trees final) (hrefs : names.refs = []) :
    final.vars = names.vars ++ s.found names.vars s.segments.length := by
  have hlt : s.definitions.length < s.segments.length := by
    rw [length_segments]
    omega
  have ht := List.getElem?_eq_getElem hlt
  have hvars := h.vars_table hrefs (Nat.le_refl _)
  obtain ⟨e, htree⟩ := h.exists_tree ht
  obtain ⟨after, hparse, htable, -, ⟨d, hd, -⟩ | ⟨-, rfl⟩⟩ := h.parse_table htree
  · have hlt := (List.getElem?_eq_some_iff.mp hd).1
    omega
  · rw [hrefs, List.nil_append] at htable
    rw [length_segments]
    exact vars_of_parse ht hparse hvars htable

/-- Each name that is looked up in a segment leaves a table of which nothing is changed later. -/
theorem Reads.lookUp_table (h : s.Reads names trees final) (ht : s.segments[k]? = some t) :
    (Expr.parse t (s.table names k)).2 = (s.table names k).lookUp t.names ∧
      ∀ m, ((s.table names k).lookUp (t.names.take m)).vars <+: final.vars := by
  obtain ⟨e, htree⟩ := h.exists_tree ht
  obtain ⟨after, hparse, -, hg, -⟩ := h.parse_table htree
  obtain ⟨x, hx, hr⟩ := Expr.derives_of_parse hparse
  have hlast : (s.table names k).lookUp t.names = after := by
    rw [Segment.names_of_derives hx, hr.lookUp_eq]
  refine ⟨by rw [hparse, hlast], ?_⟩
  intro m
  have hrest := ((s.table names k).lookUp (t.names.take m)).grows_lookUp (t.names.drop m)
  rw [← Names.lookUp_append, List.take_append_drop, hlast] at hrest
  exact (hrest.trans hg).vars

end Script

/-! ### What is loaded -/

/-- An operand that loads a variable is a name, and the place is that of the name. -/
theorem Placed.name_of_load? {vars refs : List String} {p : Placed} {j : Nat}
    (h : p.load? { vars, refs } = some (.var j)) :
    ∃ name, p.token = .identifier name ∧ vars[j]? = some name := by
  obtain ⟨token, column⟩ := p
  obtain ⟨o, ho, hload⟩ := Option.map_eq_some_iff.mp h
  obtain rfl : o = .var j := by
    cases o <;> cases hload
    rfl
  cases token with
  | identifier name =>
    simp only [operand?] at ho
    split at ho
    · cases ho
    · split at ho
      · cases ho
      · obtain ⟨b, hb, hoperand⟩ := Option.map_eq_some_iff.mp ho
        obtain rfl : b = .var j := by
          cases b <;> cases hoperand
          rfl
        refine ⟨name, rfl, ?_⟩
        rcases Names.resolve_cases (Prod.ext hb rfl) with
          ⟨i, hi, hbinding, -⟩ | ⟨i, -, -, hbinding, -⟩ | ⟨-, -, hdiscover, -, -⟩
        · cases hbinding
          exact Names.getElem?_of_idxOf? hi
        · cases hbinding
        · cases hdiscover
  | literal text =>
    obtain ⟨value, -, hvalue⟩ := Option.map_eq_some_iff.mp ho
    cases hvalue
  | unknown | blank | operator | leftParen | rightParen | comma => cases ho

theorem Script.standsIn_of_mem_segments {source : String} {s : Script} {t : Segment}
    (h : ofSource? source = .ok s) (ht : t ∈ s.segments) : t.StandsIn 0 source.toList := by
  obtain ⟨hdefinitions, hmain⟩ := (written_of_ofSource? h).standsIn
  rcases mem_segments.mp ht with ⟨d, hd, rfl⟩ | rfl
  · exact hdefinitions d hd
  · exact hmain

namespace Compiler

/-- A load of a variable stands for the name that is written in its place. -/
theorem name_of_getElem?_code {c : Compiler} {source : String} {f : Formula} {script : Script}
    {s : Segment} {p : Program} {k a j : Nat} (h : c.compile source = .ok f)
    (hscript : Script.ofSource? source = .ok script) (hs : script.segments[k]? = some s)
    (hp : f.programs[k]? = some p) (hcode : p.code[a]? = some (.var j)) :
    ∃ t name, s.operands[(p.code.take a).countP Opcode.isLoad]? = some t ∧
      t.token = .identifier name ∧ t.column.slice source.toList = name.toList ∧
      f.vars[j]? = some name := by
  obtain ⟨script', hscript', -, hsegments⟩ := segments_of_compile h
  obtain rfl := Except.ok.inj (hscript.symm.trans hscript')
  obtain ⟨e, before, after, hparse, -, hg, hprogram⟩ := hsegments k s p hs hp
  have hloads := Segment.loads_of_toProgram? hparse hg hprogram
  have hload : (p.code.filter Opcode.isLoad)[(p.code.take a).countP Opcode.isLoad]? =
      some (.var j) := getElem?_filter_of_getElem? hcode rfl
  obtain ⟨t, ht, hshows⟩ := exists_of_forall₂ hloads hload
  obtain ⟨name, htoken, hname⟩ := Placed.name_of_load? hshows
  have hmem : t ∈ s.tokens := (List.mem_filter.mp (List.mem_of_getElem? ht)).1
  have hstands := Script.standsIn_of_mem_segments hscript (List.mem_of_getElem? hs)
  have hslice := hstands.slice_eq hmem
  rw [htoken] at hslice
  exact ⟨t, name, ht, htoken, hslice, hname⟩

/-- The variables that are found are the names of the source in the order of their first uses,
without those that are listed and those that a definition in front of their first use has. Whenever
a name is looked up, the table that it leaves is at the front of all variables. A load of a variable
stands for the name that is written in its place. -/
theorem vars_of_first_uses {vars : List String} {ceiling : Nat} {source : String} {f : Formula}
    (h : compile { vars, discover := true, ceiling } source = .ok f) :
    ∃ script, Script.ofSource? source = .ok script ∧
      script.segments.length = f.programs.length ∧
      f.vars = vars ++ script.found vars script.segments.length ∧
      (script.found vars script.segments.length).Nodup ∧
      (∀ (k : Nat) (s : Segment), script.segments[k]? = some s →
        let table := script.table { vars, discover := true } k
        table.vars = vars ++ script.found vars k ∧
          (Expr.parse s table).2 = table.lookUp s.names ∧
          ∀ m, (table.lookUp (s.names.take m)).vars <+: f.vars) ∧
      ∀ (k : Nat) (s : Segment) (p : Program), script.segments[k]? = some s →
        f.programs[k]? = some p → ∀ (a j : Nat), p.code[a]? = some (.var j) →
          j < f.vars.length ∧ ∃ t name,
            s.operands[(p.code.take a).countP Opcode.isLoad]? = some t ∧
            t.token = .identifier name ∧ t.column.slice source.toList = name.toList ∧
            f.vars[j]? = some name := by
  obtain ⟨script, trees, final, hscript, hreads, hvars, -, -⟩ := trees_of_compile h
  have hfound := hreads.vars_final rfl
  rw [← hvars] at hfound
  refine ⟨script, hscript, ?_, hfound, script.nodup_found vars _, ?_, ?_⟩
  · obtain ⟨script', hscript', hlength, -⟩ := segments_of_compile h
    obtain rfl := Except.ok.inj (hscript.symm.trans hscript')
    exact hlength
  · intro k s hs
    have hk := (List.getElem?_eq_some_iff.mp hs).1
    rw [Script.length_segments] at hk
    obtain ⟨hparse, hgrows⟩ := hreads.lookUp_table hs
    rw [← hvars] at hgrows
    exact ⟨hreads.vars_table rfl (by omega), hparse, hgrows⟩
  · intro k s p hs hp a j hcode
    obtain ⟨t, name, ht, htoken, hslice, hname⟩ := name_of_getElem?_code h hscript hs hp hcode
    exact ⟨(List.getElem?_eq_some_iff.mp hname).1, t, name, ht, htoken, hslice, hname⟩

/-- `z` is listed, `y` is found in front of its definition, and `a` and `b` are always behind
theirs. -/
theorem vars_of_first_uses_declared_later : ∃ f script,
    compile { vars := ["z"], discover := true } "a: x + y; y: a + z; b: w - x; w + y*b" = .ok f ∧
    Script.ofSource? "a: x + y; y: a + z; b: w - x; w + y*b" = .ok script ∧
    f.vars = ["z", "x", "y", "w"] ∧
    f.vars = ["z"] ++ script.found ["z"] script.segments.length := by
  have h : (compile { vars := ["z"], discover := true }
      "a: x + y; y: a + z; b: w - x; w + y*b").toOption.map (·.vars) =
      some ["z", "x", "y", "w"] := by decide +kernel
  obtain ⟨f, hf, hvars⟩ := Option.map_eq_some_iff.mp h
  have hf := Except.ok_of_toOption hf
  obtain ⟨script, hscript, -, hfound, -⟩ := vars_of_first_uses hf
  exact ⟨f, script, hf, hscript, hvars, hfound⟩

end Compiler
end FormulaMachine
