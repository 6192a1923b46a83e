import FormulaMachine.Proofs.Discovery.Variables
import FormulaMachine.Proofs.Session.Lines

/-!
What a line can do to a session. `enter_cases` says it once: either a name has been given a value,
or at most the random source is another one.
-/
namespace FormulaMachine.Session

/-- A name is given a value: in its first place, or as the last one. -/
inductive Sets (name : String) (value : Float) :
    List (String × Float) → List (String × Float) → Prop
  | inPlace {front back : List (String × Float)} {old : Float} : name ∉ front.map (·.1) →
    Sets name value (front ++ (name, old) :: back) (front ++ (name, value) :: back)
  | last {bindings : List (String × Float)} : name ∉ bindings.map (·.1) →
    Sets name value bindings (bindings ++ [(name, value)])

section
variable {name : String} {value : Float} {bindings bindings' : List (String × Float)}

theorem Sets.cons {b : String × Float} (h : Sets name value bindings bindings')
    (hb : name ≠ b.1) : Sets name value (b :: bindings) (b :: bindings') := by
  cases h with
  | @inPlace front back old hfront =>
    have hb : name ∉ (b :: front).map (·.1) := by simp [hb, hfront]
    exact .inPlace hb
  | last hlast =>
    have hb : name ∉ (b :: bindings).map (·.1) := by simp [hb, hlast]
    exact .last hb

theorem sets_bind (bindings : List (String × Float)) (name : String) (value : Float) :
    Sets name value bindings (bind bindings name value) := by
  induction bindings with
  | nil => exact .last List.not_mem_nil
  | cons b bindings ih =>
    by_cases hb : b.1 = name
    · subst hb
      rw [bind, if_pos (beq_self_eq_true _)]
      exact @Sets.inPlace _ _ [] _ _ List.not_mem_nil
    · rw [bind, if_neg (by simpa using hb)]
      exact ih.cons (Ne.symm hb)

theorem values_bind_of_some {i : Nat} (h : (bindings.map (·.1)).idxOf? name = some i) :
    (bind bindings name value).map (·.2) = (bindings.map (·.2)).set i value := by
  induction bindings generalizing i with
  | nil => cases h
  | cons b bindings ih =>
    rw [List.map_cons, List.idxOf?_cons] at h
    rw [bind]
    split at h
    · next hb =>
      cases h
      rw [if_pos hb]
      rfl
    · next hb =>
      obtain ⟨j, hj, rfl⟩ := Option.map_eq_some_iff.mp h
      rw [if_neg hb, List.map_cons, ih hj]
      rfl

theorem values_bind_of_none (h : (bindings.map (·.1)).idxOf? name = none) :
    (bind bindings name value).map (·.2) = bindings.map (·.2) ++ [value] := by
  induction bindings with
  | nil => rfl
  | cons b bindings ih =>
    rw [List.map_cons, List.idxOf?_cons] at h
    split at h
    · cases h
    · next hb =>
      rw [bind, if_neg hb, List.map_cons, ih (Option.map_eq_none_iff.mp h)]
      rfl

theorem Sets.mem {b : String × Float} (h : Sets name value bindings bindings')
    (hb : b ∈ bindings') : b ∈ bindings ∨ b = (name, value) := by
  cases h with
  | inPlace | last => grind

theorem Sets.names (h : Sets name value bindings bindings') : bindings'.map (·.1) =
    if name ∈ bindings.map (·.1) then bindings.map (·.1) else bindings.map (·.1) ++ [name] := by
  cases h with
  | inPlace => simp
  | last h => simp [h]

end

section
variable {s s' : Session} {name source : String} {reply : Reply} {f : Formula} {r : Evaluation}
  {e : Error} {random : RandomSource}

theorem compile_ne_lines {names lines : List String} :
    compile names source ≠ .error (.lines lines) := by
  intro h
  rw [compile] at h
  split at h
  · cases h
  · split at h <;> cases h

theorem evaluate_of_compile_error (h : compile s.names source = .error reply) :
    s.evaluate source = (.error reply, s) := by
  simp only [evaluate, h]

theorem evaluate_of_run_error (h : compile s.names source = .ok f)
    (hf : f.run s.values s.random = (.error e, random)) :
    s.evaluate source = (.error (.failed source e), { s with random }) := by
  simp only [evaluate, h, hf]

theorem evaluate_of_run (h : compile s.names source = .ok f)
    (hf : f.run s.values s.random = (.ok r, random)) :
    s.evaluate source = (.ok r, { s with random }) := by
  simp only [evaluate, h, hf]

/-- An expression is not compiled, or fails as it runs, or has a value. -/
theorem evaluate_cases (s : Session) (source : String) :
    (∃ reply, compile s.names source = .error reply ∧ s.evaluate source = (.error reply, s)) ∨
    (∃ f e random, compile s.names source = .ok f ∧
      f.run s.values s.random = (.error e, random) ∧
      s.evaluate source = (.error (.failed source e), { s with random })) ∨
    ∃ f r random, compile s.names source = .ok f ∧ f.run s.values s.random = (.ok r, random) ∧
      s.evaluate source = (.ok r, { s with random }) := by
  cases h : compile s.names source with
  | error reply => exact .inl ⟨reply, rfl, evaluate_of_compile_error h⟩
  | ok f =>
    rcases hf : f.run s.values s.random with ⟨e | r, random⟩
    · exact .inr (.inl ⟨f, e, random, rfl, hf, evaluate_of_run_error h hf⟩)
    · exact .inr (.inr ⟨f, r, random, rfl, hf, evaluate_of_run h hf⟩)

theorem compiles_of_compile {names : List String} (h : compile names source = .ok f) :
    Compiler.compile { vars := names, discover := true } source = .ok f ∧ f.vars = names := by
  rw [compile] at h
  split at h
  · cases h
  next hf =>
  split at h
  · next hdrop =>
    cases h
    obtain ⟨more, hvars⟩ := Compiler.vars_isPrefix_of_compile hf
    rw [← hvars, List.drop_left] at hdrop
    rw [hdrop, List.append_nil] at hvars
    exact ⟨hf, hvars.symm⟩
  · cases h

theorem run_of_evaluate (h : (s.evaluate source).1 = .ok r) :
    ∃ f random, compile s.names source = .ok f ∧ f.run s.values s.random = (.ok r, random) ∧
      s.evaluate source = (.ok r, { s with random }) := by
  rcases evaluate_cases s source with
    ⟨reply, -, hs⟩ | ⟨f, e, random, -, -, hs⟩ | ⟨f, r, random, hc, hr, hs⟩
  · rw [hs] at h
    cases h
  · rw [hs] at h
    cases h
  · rw [hs] at h
    cases h
    exact ⟨f, random, hc, hr, hs⟩

theorem settled_of_evaluate (h : (s.evaluate source).1 = .ok r) : r.Settled := by
  obtain ⟨f, random, hc, hr, -⟩ := run_of_evaluate h
  exact Compiler.settled_of_run (compiles_of_compile hc).1 hr

/-- As a formula, a name loads its variable. -/
theorem evaluate_name (hname : IsVariableName name) {i : Nat} {x : Float}
    (hi : s.names.idxOf? name = some i) (hv : s.values[i]? = some x) :
    s.evaluate name = (.ok { value := if x.isNaN then 0 else x, sawNaN := x.isNaN }, s) := by
  have hr : (Compiler.names { vars := s.names, discover := true }).resolve name =
      (some (.var i), { vars := s.names, discover := true }) := by
    simp only [Names.resolve, Compiler.names, hi]
  have hc : compile s.names name = .ok { source := name, vars := s.names, references := [],
                                         main := { code := [.var i], constants := [] } } := by
    simp only [compile, Compiler.compile_of_isVariableName hname hr, List.drop_length]
  have hl : s.values.length = s.names.length := by
    rw [values, names, List.length_map, List.length_map]
  refine evaluate_of_run hc ?_
  rw [Formula.run, if_neg (not_not_intro hl), Formula.runFrom, Program.run_var hv]
  rfl

end

namespace Table

/-- A table is compiled with the names that its variable is bound with, whatever its value. -/
theorem names_eq (t : Table) (s : Session) (x : Float) :
    t.names s = (bind s.bindings t.name x).map (·.1) := by
  rw [(sets_bind s.bindings t.name x).names, Table.names, Table.place?]
  cases h : s.names.idxOf? t.name with
  | none => exact (if_neg (List.idxOf?_eq_none_iff.mp h)).symm
  | some i =>
    have hmem : t.name ∈ s.names := List.mem_of_getElem? (Names.getElem?_of_idxOf? h)
    exact (List.append_nil _).trans (if_pos hmem).symm

/-- With a value in its place, a copy of the values is what they are with the variable bound to that
value. -/
theorem set_slot (t : Table) (s : Session) (x : Float) :
    (t.slot s).2.set (t.slot s).1 x = (bind s.bindings t.name x).map (·.2) := by
  rw [slot, place?]
  cases h : s.names.idxOf? t.name with
  | none => simp [values_bind_of_none h, values]
  | some i => exact (values_bind_of_some h).symm

theorem length_slot (t : Table) (s : Session) : (t.slot s).2.length = (t.names s).length := by
  have hset := congrArg List.length (t.set_slot s t.start)
  rw [List.length_set, List.length_map] at hset
  rw [hset, t.names_eq s t.start, List.length_map]

end Table

/-- A line that is compiled and run. -/
inductive Runs (s : Session) (line : String) (f : Formula) : Prop
  | expression : IsExpression line → compile s.names line = .ok f → Runs s line f
  | assignment {name source : String} : Assigns line name source → isAssignable name = true →
    compile s.names source = .ok f → Runs s line f
  | table {t : Table} {bindings : List (String × Float)} : t.Written line →
    Sets t.name t.start s.bindings bindings → compile (bindings.map (·.1)) t.source = .ok f →
    Runs s line f

/-- A line that asks for the command of the given word. -/
def Calls (line word : String) : Prop :=
  ∃ cs, line.toList = ':' :: cs ∧ cs.takeWhile (!Text.isBlank ·) = word.toList

/-- A line that lists variables or code, that is no command, or that comes to nothing before anything
is run. -/
inductive Rests (s : Session) (line : String) : Prop
  | vars : Calls line "vars" → Rests s line
  | code : Calls line "code" → Rests s line
  | unknown {word : String} : Calls line word →
    word ∉ ["quit", "q", "vars", "seed", "code", "table"] → Rests s line
  | refused {name source : String} : Assigns line name source → isAssignable name = false →
    Rests s line
  | expression {reply : Reply} : IsExpression line → compile s.names line = .error reply →
    Rests s line
  | assignment {name source : String} {reply : Reply} : Assigns line name source →
    compile s.names source = .error reply → Rests s line
  | table {t : Table} {reply : Reply} : t.Written line →
    compile (t.names s) t.source = .error reply → Rests s line

/-- A line that can change the random source. -/
def Stirs (s : Session) (line : String) : Prop :=
  (∃ f, Runs s line f) ∨ ∃ seed, Seeds line seed

/-- A line that is an assignment, with a name that can be assigned to and a source that has a
value. -/
def Binds (s : Session) (line name : String) (r : Evaluation) (random : RandomSource) : Prop :=
  ∃ source, Assigns line name source ∧ isAssignable name = true ∧
    s.evaluate source = (.ok r, { s with random })

section
variable {s : Session} {line : String} {cs : List Char} {interrupted : Interrupts}

theorem tabulate_cases (s : Session) (interrupted : Interrupts) (hl : line.toList = ':' :: cs)
    (hword : cs.takeWhile (!Text.isBlank ·) = "table".toList) :
    ∃ random, (s.tabulate (Text.trim (cs.dropWhile (!Text.isBlank ·))) interrupted).2 =
        { s with random } ∧ (random = s.random ∨ Stirs s line) := by
  rw [tabulate]
  split
  · exact ⟨s.random, rfl, .inl rfl⟩
  next t ht =>
  have hw := (Table.written_iff hl).mpr ⟨hword, ht⟩
  split
  · exact ⟨s.random, rfl, .inl rfl⟩
  next f hf =>
  rw [t.names_eq s t.start] at hf
  have hstirs : Stirs s line := .inl ⟨f, .table hw (sets_bind s.bindings t.name t.start) hf⟩
  split
  next place values hslot =>
  split
  · next random h => exact ⟨random, rfl, .inr hstirs⟩
  · next random h => exact ⟨random, rfl, .inr hstirs⟩

theorem command_cases (s : Session) (interrupted : Interrupts) (hl : line.toList = ':' :: cs) :
    ∃ random, (s.command cs interrupted).2 = { s with random } ∧
      (random = s.random ∨ Stirs s line) := by
  have hword {word : List Char} {text : String} (h : String.ofList word = text) :
      word = text.toList := by
    rw [← h, String.toList_ofList]
  simp only [command]
  split
  · exact ⟨s.random, rfl, .inl rfl⟩
  · exact ⟨s.random, rfl, .inl rfl⟩
  · exact ⟨s.random, rfl, .inl rfl⟩
  · next hname =>
    -- only a number seeds
    rw [Session.seed]
    split
    · next seed h => exact ⟨_, rfl, .inr (.inr ⟨seed, seeds_of_readWord? hl (hword hname) h⟩)⟩
    · exact ⟨s.random, rfl, .inl rfl⟩
  · exact ⟨s.random, rfl, .inl rfl⟩
  · next hname => exact tabulate_cases s interrupted hl (hword hname)
  · exact ⟨s.random, rfl, .inl rfl⟩

theorem Binds.runs {name : String} {r : Evaluation} {random : RandomSource}
    (h : Binds s line name r random) : ∃ f, Runs s line f := by
  obtain ⟨source, ha, hname, hs⟩ := h
  obtain ⟨f, -, hc, -⟩ := run_of_evaluate (congrArg Prod.fst hs)
  exact ⟨f, .assignment ha hname hc⟩

theorem enter_of_binds {name : String} {r : Evaluation} {random : RandomSource}
    (h : Binds s line name r random) (interrupted : Interrupts) : s.enter line interrupted =
      (.lines [s!"{name} = {r.text}"],
        { s with bindings := bind s.bindings name r.value, random }) := by
  obtain ⟨source, ha, hname, hs⟩ := h
  rw [enter_assignment ha, assign, if_pos hname, hs]

/-- A line gives a name a value; or the bindings stay, and the random source too if nothing is run
and it is not seeded. -/
theorem enter_cases (s : Session) (line : String) (interrupted : Interrupts) :
    (∃ name r random, Binds s line name r random) ∨
    (∀ name source lines, Assigns line name source →
        (s.enter line interrupted).1 ≠ .lines lines) ∧
      ∃ random, (s.enter line interrupted).2 = { s with random } ∧
        (random = s.random ∨ Stirs s line) := by
  rcases line_cases line with ⟨cs, hl⟩ | ⟨name, source, ha⟩ | he
  · refine .inr ⟨fun name source lines ha => absurd (congrArg List.head? hl) ha.1, ?_⟩
    rw [enter_command hl]
    exact command_cases s interrupted hl
  · rw [enter_assignment ha, assign]
    cases hname : isAssignable name with
    | false => exact .inr ⟨nofun, s.random, rfl, .inl rfl⟩
    | true =>
      rw [if_pos rfl]
      rcases evaluate_cases s source with
        ⟨reply, hc, hs⟩ | ⟨f, e, random, hc, -, hs⟩ | ⟨f, r, random, -, -, hs⟩
      · rw [hs]
        refine .inr ⟨fun _ _ lines _ h => ?_, s.random, rfl, .inl rfl⟩
        exact compile_ne_lines (hc.trans (congrArg _ h))
      · rw [hs]
        exact .inr ⟨nofun, random, rfl, .inr (.inl ⟨f, .assignment ha hname hc⟩)⟩
      · exact .inl ⟨name, r, random, source, ha, hname, hs⟩
  · refine .inr ⟨fun name source lines ha => absurd ha he.not_assigns, ?_⟩
    rw [enter_expression he]
    rcases evaluate_cases s line with
      ⟨reply, -, hs⟩ | ⟨f, e, random, hc, -, hs⟩ | ⟨f, r, random, hc, -, hs⟩
    · rw [hs]
      exact ⟨s.random, rfl, .inl rfl⟩
    · rw [hs]
      exact ⟨random, rfl, .inr (.inl ⟨f, .expression he hc⟩)⟩
    · rw [hs]
      exact ⟨random, rfl, .inr (.inl ⟨f, .expression he hc⟩)⟩

theorem binds_of_lines {name source : String} {lines : List String}
    (ha : Assigns line name source) (hl : (s.enter line interrupted).1 = .lines lines) :
    isAssignable name = true ∧ ∃ r random, s.evaluate source = (.ok r, { s with random }) := by
  rcases enter_cases s line interrupted with ⟨_, r, random, source', ha', hname, hs⟩ | ⟨hne, -⟩
  · obtain ⟨rfl, rfl⟩ := ha.unique ha'
    exact ⟨hname, r, random, hs⟩
  · exact absurd hl (hne _ _ _ ha)

theorem enter_of_calls {word : String} (h : Calls line word) (interrupted : Interrupts) :
    ∃ argument, s.enter line interrupted = s.command (word.toList ++ argument) interrupted ∧
      (word.toList ++ argument).takeWhile (!Text.isBlank ·) = word.toList := by
  obtain ⟨cs, hl, hword⟩ := h
  have hcs : cs = word.toList ++ cs.dropWhile (!Text.isBlank ·) := by
    rw [← hword, List.takeWhile_append_dropWhile]
  rw [enter_command hl]
  exact ⟨_, congrArg (s.command · interrupted) hcs, by rw [← hcs, hword]⟩

/-- What only lists, is no command or comes to nothing leaves the session as it was, with its random
source. -/
theorem enter_of_rests (h : Rests s line) (interrupted : Interrupts) :
    (s.enter line interrupted).2 = s := by
  cases h with
  | vars hc | code hc =>
    obtain ⟨argument, henter, hword⟩ := enter_of_calls (s := s) hc interrupted
    rw [henter, command, hword]
    simp only [String.ofList_toList]
  | @unknown word hc hne =>
    obtain ⟨argument, henter, hword⟩ := enter_of_calls (s := s) hc interrupted
    rw [henter, command, hword, String.ofList_toList]
    simp only [List.mem_cons, List.not_mem_nil, or_false, not_or] at hne
    split <;> simp_all
  | refused ha hname =>
    rw [enter_assignment ha, assign, hname]
    rfl
  | expression he hc => rw [enter_expression he, evaluate_of_compile_error hc]
  | assignment ha hc =>
    rw [enter_assignment ha, assign, evaluate_of_compile_error hc]
    split <;> rfl
  | table hw hc =>
    obtain ⟨cs, hl⟩ := Table.exists_of_written hw
    obtain ⟨hword, hread⟩ := (Table.written_iff hl).mp hw
    rw [enter_command hl, command, hword]
    simp only [String.ofList_toList, tabulate, hread, hc]

/-- Only an assignment that is answered with lines changes the bindings, and it sets one name, to
the value that its source has before. What is not run leaves the random source as it was: a list of
variables or of code, an unknown command, a refused name, a source that is not compiled. -/
theorem enter_frame (s : Session) (line : String) (interrupted : Interrupts) :
    (∀ name source, Assigns line name source →
      ((∃ lines, (s.enter line interrupted).1 = .lines lines) ↔
        isAssignable name = true ∧ ∃ r, (s.evaluate source).1 = .ok r) ∧
      ∀ lines r, (s.enter line interrupted).1 = .lines lines → (s.evaluate source).1 = .ok r →
        (r.sawNaN = true → r.value = 0) ∧
        Sets name r.value s.bindings (s.enter line interrupted).2.bindings) ∧
    ((∀ name source lines, Assigns line name source →
        (s.enter line interrupted).1 ≠ .lines lines) →
      (s.enter line interrupted).2.bindings = s.bindings) ∧
    ((∀ f, ¬ Runs s line f) → (∀ seed, ¬ Seeds line seed) →
      (s.enter line interrupted).2 = s) ∧
    (Rests s line → (s.enter line interrupted).2 = s) := by
  refine ⟨fun name source ha => ⟨⟨?_, ?_⟩, fun lines r hl hr => ?_⟩, fun hne => ?_,
    fun hruns hseeds => ?_, fun hrests => enter_of_rests hrests interrupted⟩
  · rintro ⟨lines, hl⟩
    obtain ⟨hname, r, random, hs⟩ := binds_of_lines ha hl
    exact ⟨hname, r, congrArg Prod.fst hs⟩
  · rintro ⟨hname, r, hr⟩
    obtain ⟨f, random, -, -, hs⟩ := run_of_evaluate hr
    exact ⟨_, congrArg Prod.fst (enter_of_binds ⟨source, ha, hname, hs⟩ interrupted)⟩
  · obtain ⟨hname, -⟩ := binds_of_lines ha hl
    obtain ⟨f, random, -, -, hs⟩ := run_of_evaluate hr
    rw [enter_of_binds ⟨source, ha, hname, hs⟩ interrupted]
    exact ⟨(settled_of_evaluate hr).eq_zero, sets_bind s.bindings name r.value⟩
  · rcases enter_cases s line interrupted with ⟨name, r, random, hb⟩ | ⟨-, random, hs, -⟩
    · have ⟨source, ha, _⟩ := hb
      exact absurd (congrArg Prod.fst (enter_of_binds hb interrupted)) (hne _ _ _ ha)
    · rw [hs]
  · rcases enter_cases s line interrupted with
      ⟨name, r, random, hb⟩ | ⟨-, random, hs, rfl | ⟨f, hf⟩ | ⟨seed, hseed⟩⟩
    · obtain ⟨f, hf⟩ := hb.runs
      exact absurd hf (hruns f)
    · exact hs
    · exact absurd hf (hruns f)
    · exact absurd hseed (hseeds seed)

end

/-- Where a NaN is met, zero goes in the place of the old value. -/
theorem enter_frame_nan :
    let s : Session := { bindings := [("x", 7), ("y", 1)], random := .cycle [],
                         seeded := fun _ => .cycle [] }
    Assigns "x := 1e999 - 1e999 + y" "x" "1e999 - 1e999 + y" ∧ isAssignable "x" = true ∧
      ∃ r, (s.evaluate "1e999 - 1e999 + y").1 = .ok r ∧ r.sawNaN = true ∧
        (∃ lines, (s.enter "x := 1e999 - 1e999 + y").1 = .lines lines) ∧
        Sets "x" 0 s.bindings (s.enter "x := 1e999 - 1e999 + y").2.bindings := by
  intro s
  have ha : Assigns "x := 1e999 - 1e999 + y" "x" "1e999 - 1e999 + y" :=
    assignment?_eq_some_iff.mp (by decide)
  have hx : isAssignable "x" = true := by decide +kernel
  have hnan : (s.evaluate "1e999 - 1e999 + y").1.toOption.map (·.sawNaN) = some true := by
    decide +kernel
  obtain ⟨r, hr, hnan⟩ := Option.map_eq_some_iff.mp hnan
  have hr := Except.ok_of_toOption hr
  obtain ⟨hlines, hsets⟩ := (enter_frame s "x := 1e999 - 1e999 + y" false).1 _ _ ha
  obtain ⟨lines, hl⟩ := hlines.mpr ⟨hx, r, hr⟩
  obtain ⟨hzero, hset⟩ := hsets lines r hl hr
  rw [hzero hnan] at hset
  exact ⟨ha, hx, r, hr, hnan, ⟨lines, hl⟩, hset⟩

end FormulaMachine.Session
