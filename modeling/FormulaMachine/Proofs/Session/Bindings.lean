import FormulaMachine.Proofs.Session.Frame

/-!
What holds of the bindings of a session in every state that lines lead to. The names are those that
have been assigned to, and a variable shows its value.
-/
namespace FormulaMachine

namespace Session

/-- The session after all the lines. -/
def enterAll (s : Session) : List (String × Interrupts) → Session
  | [] => s
  | (line, interrupted) :: entries => enterAll (s.enter line interrupted).2 entries

/-- The name that a line assigns to, if it is answered with lines. -/
def assigned? (s : Session) (line : String) (interrupted : Interrupts) : Option String :=
  match (s.enter line interrupted).1 with
  | .lines _ => (assignment? line).map (·.1)
  | _ => none

/-- The names that are assigned to on the way, each as often as that is done. -/
def assignedAll (s : Session) : List (String × Interrupts) → List String
  | [] => []
  | (line, interrupted) :: entries =>
    (s.assigned? line interrupted).toList ++ assignedAll (s.enter line interrupted).2 entries

/-- What holds of a session in which the given names have been assigned to, one after another. -/
structure Consistent (s : Session) (assigned : List String) : Prop where
  names_eq : s.names = assigned.eraseDups
  nodup : s.names.Nodup
  isVariableName : ∀ name ∈ s.names, IsVariableName name
  not_isNaN : ∀ b ∈ s.bindings, b.2.isNaN = false

section
variable {s : Session} {line name : String} {interrupted : Interrupts} {assigned : List String}

theorem isVariableName_of_isAssignable (h : isAssignable name = true) : IsVariableName name := by
  rw [isAssignable] at h
  split at h
  · next f hf =>
    have hvars : f.vars = [name] := eq_of_beq h
    have hn : name ∈ f.vars := hvars ▸ List.mem_singleton_self name
    exact (Compiler.vars_cases_of_compile hf hn).resolve_left List.not_mem_nil
  · cases h

theorem assigned?_of_binds {r : Evaluation} {random : RandomSource}
    (h : Binds s line name r random) : s.assigned? line interrupted = some name := by
  have ⟨source, ha, _⟩ := h
  rw [assigned?, enter_of_binds h, assignment?_eq_some_iff.mpr ha]
  rfl

theorem assigned?_eq_none (h : ∀ name source lines, Assigns line name source →
    (s.enter line interrupted).1 ≠ .lines lines) : s.assigned? line interrupted = none := by
  rw [assigned?]
  split
  · next lines hl =>
    cases ha : assignment? line with
    | none => rfl
    | some sides => exact absurd hl (h _ _ _ (assignment?_eq_some_iff.mp ha))
  · rfl

theorem eraseDups_append_singleton (l : List String) (name : String) :
    (l ++ [name]).eraseDups =
      if name ∈ l.eraseDups then l.eraseDups else l.eraseDups ++ [name] := by
  rw [List.eraseDups_append]
  by_cases h : name ∈ l
  · simp [List.removeAll, h]
  · simp [List.removeAll, h, List.eraseDups_cons]

/-- Giving a name a value keeps what holds. -/
theorem Consistent.bind (h : s.Consistent assigned) (hname : IsVariableName name) {x : Float}
    (hx : x.isNaN = false) (random : RandomSource) :
    Consistent { s with bindings := bind s.bindings name x, random } (assigned ++ [name]) := by
  have hsets := sets_bind s.bindings name x
  have hnames : names { s with bindings := Session.bind s.bindings name x, random } =
      if name ∈ s.names then s.names else s.names ++ [name] := hsets.names
  refine ⟨?_, ?_, fun n hn => ?_, fun b hb => ?_⟩
  · rw [hnames, eraseDups_append_singleton, h.names_eq]
  · rw [hnames]
    split
    · exact h.nodup
    · next hn => exact List.nodup_append.mpr ⟨h.nodup, by simp, by grind⟩
  · rw [hnames] at hn
    split at hn
    · exact h.isVariableName n hn
    · rcases List.mem_append.mp hn with hn | hn
      · exact h.isVariableName n hn
      · rw [List.mem_singleton.mp hn]
        exact hname
  · rcases hsets.mem hb with hb | rfl
    · exact h.not_isNaN b hb
    · exact hx

theorem Consistent.enter (h : s.Consistent assigned) (line : String) (interrupted : Interrupts) :
    (s.enter line interrupted).2.Consistent
      (assigned ++ (s.assigned? line interrupted).toList) := by
  rcases enter_cases s line interrupted with ⟨name, r, random, hb⟩ | ⟨hne, random, hs, -⟩
  · have ⟨source, _, hname, hs⟩ := hb
    have hr := settled_of_evaluate (congrArg Prod.fst hs)
    rw [assigned?_of_binds hb, enter_of_binds hb]
    exact h.bind (isVariableName_of_isAssignable hname) hr.not_isNaN random
  · rw [assigned?_eq_none hne, hs, Option.toList_none, List.append_nil]
    exact ⟨h.names_eq, h.nodup, h.isVariableName, h.not_isNaN⟩

theorem Consistent.enterAll (h : s.Consistent assigned) (entries : List (String × Interrupts)) :
    (s.enterAll entries).Consistent (assigned ++ s.assignedAll entries) := by
  induction entries generalizing s assigned with
  | nil =>
    rw [assignedAll, List.append_nil]
    exact h
  | cons entry entries ih =>
    rw [assignedAll, ← List.append_assoc]
    exact ih (h.enter entry.1 entry.2)

theorem consistent_fresh (random : RandomSource) (seeded : UInt64 → RandomSource) :
    Consistent { random, seeded } [] where
  names_eq := rfl
  nodup := List.nodup_nil
  isVariableName := nofun
  not_isNaN := nofun

theorem isExpression_of_isVariableName (h : IsVariableName name) : IsExpression name := by
  have hcolon : ':' ∉ name.toList := fun hm => by
    have hc := isNameChar_of_isName h.1 _ hm
    cases hc
  exact ⟨fun hc => hcolon (List.mem_of_mem_head? hc),
    fun hc => hcolon (hc.subset List.mem_cons_self)⟩

/-- Where the names are distinct, the first place of a name has the only value of the name. -/
theorem value_of_mem (h : s.names.Nodup) {x : Float} (hb : (name, x) ∈ s.bindings) :
    ∃ i, s.names.idxOf? name = some i ∧ s.values[i]? = some x := by
  obtain ⟨j, hj, hget⟩ := List.getElem_of_mem hb
  have hj : s.bindings[j]? = some (name, x) := List.getElem?_eq_some_iff.mpr ⟨hj, hget⟩
  have hname : s.names[j]? = some name := by rw [names, List.getElem?_map, hj]; rfl
  have hvalue : s.values[j]? = some x := by rw [values, List.getElem?_map, hj]; rfl
  cases hi : s.names.idxOf? name with
  | none => exact absurd (List.mem_of_getElem? hname) (List.idxOf?_eq_none_iff.mp hi)
  | some i =>
    have hget := Names.getElem?_of_idxOf? hi
    have hlt := (List.getElem?_eq_some_iff.mp hget).1
    obtain rfl := (List.getElem?_inj hlt h).mp (hget.trans hname.symm)
    exact ⟨i, rfl, hvalue⟩

/-- A variable shows its value. -/
theorem Consistent.enter_name (h : s.Consistent assigned) {x : Float} (hb : (name, x) ∈ s.bindings)
    (interrupted : Interrupts) : s.enter name interrupted = (.lines [Decimal.text x], s) := by
  have hname := h.isVariableName name (List.mem_map_of_mem hb)
  have hx : x.isNaN = false := h.not_isNaN (name, x) hb
  obtain ⟨i, hi, hv⟩ := value_of_mem h.nodup hb
  rw [enter_expression (isExpression_of_isVariableName hname), evaluate_name hname hi hv, hx]
  simp [Evaluation.text]

end

/-- The names are distinct and stand in the order in which they have first been assigned to. They
are variable names, and their values are no NaNs. Each shows its value. -/
theorem enterAll_consistent (random : RandomSource) (seeded : UInt64 → RandomSource)
    (entries : List (String × Interrupts)) :
    let s := enterAll { random, seeded } entries
    s.names.Nodup ∧ (∀ name ∈ s.names, IsVariableName name) ∧
      s.names = (assignedAll { random, seeded } entries).eraseDups ∧
      (∀ b ∈ s.bindings, b.2.isNaN = false) ∧
      ∀ name x, (name, x) ∈ s.bindings → ∀ interrupted,
        s.enter name interrupted = (.lines [Decimal.text x], s) := by
  have h := (consistent_fresh random seeded).enterAll entries
  rw [List.nil_append] at h
  exact ⟨h.nodup, h.isVariableName, h.names_eq, h.not_isNaN,
    fun name x hb interrupted => h.enter_name hb interrupted⟩

example : (enterAll { random := .cycle [], seeded := fun _ => .cycle [] }
    [("x := 2", false), ("pi := x", false), ("y := 1e999 - 1e999", false),
      (":table z 0 1 4 x", false), ("x := y + z", false), ("x := y + 1", false)]).bindings =
    [("x", 1), ("y", 0)] := by decide +kernel

end Session
end FormulaMachine
