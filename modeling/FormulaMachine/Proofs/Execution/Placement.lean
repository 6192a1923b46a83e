import FormulaMachine.Proofs.Execution

/-!
Fragments in the middle of programs. Skips are relative and constants are taken in order, so a run
goes through a fragment that leads nowhere beyond its end as if nothing stood around it: it fails
as the fragment alone does, or it leaves behind the last instruction with the same operands.
-/
namespace FormulaMachine

namespace Fragment

/-- The program of all the instructions, checked or not. -/
def program (f : Fragment) : Program := { code := f.code, constants := f.constants }

/-- There are as many numbers as constants, and no instruction leads beyond the end. -/
structure Closed (f : Fragment) : Prop where
  numbers : f.code.countP Opcode.isNumber = f.constants.length
  targets : ∀ a op n, f.code[a]? = some op → op.skip? = some n → a + 1 + n ≤ f.size

end Fragment

namespace Program

variable {env : Environment} {op : Opcode} {code : List Opcode} {x : Float} {n m : Nat}
  {f before after : Fragment}

/-- What is left to run. -/
def State.rest (s : State) : Fragment := { code := s.code, constants := s.constants }

/-- The same state with more code behind. -/
def State.followedBy (s : State) (f : Fragment) : State :=
  { s with code := s.code ++ f.code, constants := s.constants ++ f.constants }

def Step.followedBy : Step → Fragment → Step
  | .next s, f => .next (s.followedBy f)
  | .halt, _ => .halt
  | .fail e random, _ => .fail e random

namespace State

variable {s t u : State}

/-! ### The end of the code -/

theorem push_ne_halt : s.push x ≠ .halt := by
  intro h
  unfold push at h
  split at h <;> cases h

theorem load_ne_halt {x? : Option Float} {detail : String} : s.load x? detail ≠ .halt := by
  intro h
  unfold load at h
  split at h
  · exact push_ne_halt h
  · cases h

theorem skip_ne_halt : s.skip n ≠ .halt := by
  intro h
  unfold skip at h
  split at h <;> cases h

theorem pop_ne_halt {use : Float → State → Step} (huse : ∀ x u, use x u ≠ .halt) :
    s.pop use ≠ .halt := by
  intro h
  unfold pop at h
  split at h
  · exact huse _ _ h
  · cases h

theorem pop₂_ne_halt {use : Float → Float → State → Step} (huse : ∀ x y u, use x y u ≠ .halt) :
    s.pop₂ use ≠ .halt := by
  intro h
  unfold pop₂ at h
  split at h
  · exact huse _ _ _ h
  · cases h

/-- No instruction ends a run. -/
theorem perform_ne_halt : s.perform env op ≠ .halt := by
  cases op <;> rw [perform]
  case number | var | ref => exact load_ne_halt
  case pi | euler => exact push_ne_halt
  case branch n =>
    refine pop_ne_halt fun x u h => ?_
    split at h
    · cases h
    · exact skip_ne_halt h
  case jump n => exact skip_ne_halt
  case endIf => exact fun h => by cases h
  case negate | call => exact pop_ne_halt fun x u => push_ne_halt
  case binary | call₂ => exact pop₂_ne_halt fun x y u => push_ne_halt

theorem step_eq_halt_iff : s.step env = .halt ↔ s.code = [] := by
  constructor
  · intro h
    unfold step at h
    split at h
    · assumption
    · exact absurd h perform_ne_halt
  · intro hc
    simp [step, hc]

theorem code_ne_nil_of_next (h : s.step env = .next t) : s.code ≠ [] := by
  intro hc
  rw [step_eq_halt_iff.mpr hc] at h
  cases h

theorem code_ne_nil_of_fail {e : Error} {random : RandomSource}
    (h : s.step env = .fail e random) : s.code ≠ [] := by
  intro hc
  rw [step_eq_halt_iff.mpr hc] at h
  cases h

/-! ### Steps -/

theorem push_followedBy : (s.followedBy f).push x = (s.push x).followedBy f := by
  have ho : (s.followedBy f).operands = s.operands := rfl
  unfold push
  rw [ho]
  cases s.operands.push x <;> rfl

theorem load_followedBy {x? : Option Float} {detail : String} :
    (s.followedBy f).load x? detail = (s.load x? detail).followedBy f := by
  cases x? with
  | none => rfl
  | some x => exact push_followedBy

theorem pop_followedBy {use : Float → State → Step}
    (huse : ∀ x operands, use x ({ s with operands }.followedBy f) =
      (use x { s with operands }).followedBy f) :
    (s.followedBy f).pop use = (s.pop use).followedBy f := by
  have ho : (s.followedBy f).operands = s.operands := rfl
  unfold pop
  rw [ho]
  split
  · next x operands _ => exact huse x operands
  · rfl

theorem pop₂_followedBy {use : Float → Float → State → Step}
    (huse : ∀ x y operands, use x y ({ s with operands }.followedBy f) =
      (use x y { s with operands }).followedBy f) :
    (s.followedBy f).pop₂ use = (s.pop₂ use).followedBy f := by
  have ho : (s.followedBy f).operands = s.operands := rfl
  unfold pop₂
  rw [ho]
  split
  · next x y operands _ => exact huse x y operands
  · rfl

/-- Within the code, the same instructions are skipped and the same constants with them. -/
theorem skip_followedBy (hn : n ≤ s.code.length)
    (hs : s.code.countP Opcode.isNumber = s.constants.length) :
    (s.followedBy f).skip n = (s.skip n).followedBy f := by
  have hk : (s.code.take n).countP Opcode.isNumber ≤ s.constants.length :=
    hs ▸ (List.take_sublist n s.code).countP_le
  have hn' : n ≤ (s.followedBy f).code.length := by
    simp only [followedBy, List.length_append]
    omega
  rw [skip, skip, if_pos hn, if_pos hn']
  simp only [Step.followedBy, followedBy, List.take_append_of_le_length hn,
    List.drop_append_of_le_length hn, List.drop_append_of_le_length hk]

theorem perform_followedBy (hop : op ≠ .number)
    (hs : s.code.countP Opcode.isNumber = s.constants.length)
    (hskip : ∀ n, op.skip? = some n → n ≤ s.code.length) :
    (s.followedBy f).perform env op = (s.perform env op).followedBy f := by
  cases op <;> rw [perform, perform]
  case number => exact absurd rfl hop
  case pi | euler => exact push_followedBy
  case var | ref => exact load_followedBy
  case branch n =>
    refine pop_followedBy fun x operands => ?_
    split
    · rfl
    · exact skip_followedBy (s := { s with operands }) (hskip n rfl) hs
  case jump n => exact skip_followedBy (hskip n rfl) hs
  case endIf => rfl
  case negate => exact pop_followedBy fun x operands => push_followedBy
  case call f =>
    exact pop_followedBy fun x operands =>
      push_followedBy (s := { s with operands, random := (f.apply x s.random).2 })
  case binary | call₂ => exact pop₂_followedBy fun x y operands => push_followedBy

/-- A step does not see what stands behind the code. -/
theorem step_followedBy (hs : s.rest.Closed) (hc : s.code ≠ []) :
    (s.followedBy f).step env = (s.step env).followedBy f := by
  obtain ⟨hnum, htargets⟩ := hs
  obtain ⟨code, constants, operands, sawNaN, random⟩ := s
  cases code with
  | nil => exact absurd rfl hc
  | cons op code =>
    by_cases hop : op = .number
    · subst hop
      cases constants with
      | nil => simp [rest, Opcode.isNumber] at hnum
      | cons x constants =>
        exact push_followedBy (s := ⟨code, constants, operands, sawNaN, random⟩)
    · refine perform_followedBy (s := ⟨code, constants, operands, sawNaN, random⟩) hop ?_ ?_
      · simpa [rest, isNumber_of_ne hop] using hnum
      · intro n hn
        have hle : 0 + 1 + n ≤ code.length + 1 := htargets 0 op n rfl hn
        change n ≤ code.length
        omega

theorem Passes.closed {k : Nat} (h : s.Passes k t) (hs : s.rest.Closed) : t.rest.Closed where
  numbers := by
    have hnum : s.code.countP Opcode.isNumber = s.constants.length := hs.numbers
    have hsplit : s.code.countP Opcode.isNumber = (s.code.take k).countP Opcode.isNumber +
        (s.code.drop k).countP Opcode.isNumber := by
      rw [← List.countP_append, List.take_append_drop]
    simp only [rest, h.code, h.constants, List.length_drop]
    omega
  targets a op n ha hn := by
    have hle := h.le
    have ha : s.code[k + a]? = some op := by
      rwa [rest, h.code, List.getElem?_drop] at ha
    have := hs.targets (k + a) op n ha hn
    simp only [rest, Fragment.size, h.code, List.length_drop] at this ⊢
    omega

/-! ### Runs -/

/-- From `s` the machine comes to `t` in so many steps. -/
inductive Leads (env : Environment) (s : State) : Nat → State → Prop
  | refl : Leads env s 0 s
  | step {n : Nat} {t u : State} : Leads env s n t → t.step env = .next u → Leads env s (n + 1) u

theorem Leads.unique (h : s.Leads env n t) (hu : s.Leads env n u) : t = u := by
  induction h generalizing u with
  | refl => cases hu; rfl
  | step _ hstep ih =>
    cases hu with
    | step hv hstep' =>
      obtain rfl := ih hv
      rw [hstep] at hstep'
      cases hstep'
      rfl

theorem Leads.run_eq (h : s.Leads env n t) : s.run env = t.run env := by
  induction h with
  | refl => rfl
  | step _ hstep ih => exact ih.trans (run_next hstep)

theorem Leads.length_le (h : s.Leads env n t) : n + t.code.length ≤ s.code.length := by
  induction h with
  | refl => omega
  | step _ hstep ih =>
    have := step_length_lt hstep
    omega

/-- Before its end a run makes one step more. -/
theorem Leads.exists_step (h : s.Leads env n t) (hm : m < n) :
    ∃ u v, s.Leads env m u ∧ u.step env = .next v := by
  induction h with
  | refl => omega
  | @step n t u ht hstep ih =>
    by_cases he : m = n
    · subst he
      exact ⟨t, u, ht, hstep⟩
    · exact ih (by omega)

theorem Leads.closed (h : s.Leads env n t) (hs : s.rest.Closed) : t.rest.Closed := by
  induction h with
  | refl => exact hs
  | step _ hstep ih =>
    obtain ⟨k, -, hk⟩ := passes_step hstep
    exact hk.closed ih

theorem Leads.followedBy (h : s.Leads env n t) (hs : s.rest.Closed) :
    (s.followedBy f).Leads env n (t.followedBy f) := by
  induction h with
  | refl => exact .refl
  | step ht hstep ih =>
    refine .step ih ?_
    rw [step_followedBy (ht.closed hs) (code_ne_nil_of_next hstep), hstep]
    rfl

theorem Leads.exists_stop {s t : State} {n : Nat} (h : s.Leads env n t) : ∃ m u,
    s.Leads env m u ∧ (u.code = [] ∨ ∃ e random, u.step env = .fail e random) := by
  cases ht : t.step env with
  | halt => exact ⟨n, t, h, .inl (step_eq_halt_iff.mp ht)⟩
  | fail e random => exact ⟨n, t, h, .inr ⟨e, random, ht⟩⟩
  | next u => exact (h.step ht).exists_stop
termination_by t.code.length
decreasing_by exact step_length_lt ht

/-- The same operands with nothing but the fragment to run. -/
def on (s : State) (f : Fragment) : State := { s with code := f.code, constants := f.constants }

end State

/-! ### Fragments in programs -/

variable {p : Program} {s t u : State}

/-- For `n` steps, up to `t`, the run from `s` does in `f` what it does where nothing but `f` is to
run. -/
structure Tracks (p : Program) (f after : Fragment) (env : Environment) (s : State) (n : Nat)
    (t : State) : Prop where
  leads : (s.on f).Leads env n t
  alike : ∀ m u, m ≤ n → (s.on f).Leads env m u → s.Leads env m (u.followedBy after)
  inside : ∀ m u, m < n → s.Leads env m u →
    p.address s ≤ p.address u ∧ p.address u < p.address s + f.size

/-- A run that comes to `f` in the state `s` fails there with the error of `f` alone, or leaves it at
its end, with the constants of `f` taken and all else as `f` alone leaves it. -/
inductive RunsThrough (p : Program) (f after : Fragment) (env : Environment) (s : State) : Prop
  | fails {n : Nat} {t : State} {e : Error} {random : RandomSource} :
    p.Tracks f after env s n t → p.address (t.followedBy after) < p.address s + f.size →
    t.step env = .fail e random → (t.followedBy after).step env = .fail e random →
    s.run env = (.error e, random) → RunsThrough p f after env s
  | leaves {n : Nat} {t : State} :
    p.Tracks f after env s n t → t.step env = .halt →
    p.address (t.followedBy after) = p.address s + f.size →
    p.cursor (t.followedBy after) = p.cursor s + f.constants.length →
    s.run env = (t.followedBy after).run env → RunsThrough p f after env s

theorem Aligned.cursor_eq (hs : (before ++ f ++ after).program.Aligned s)
    (hn : before.code.countP Opcode.isNumber = before.constants.length)
    (ha : (before ++ f ++ after).program.address s = before.size) :
    (before ++ f ++ after).program.cursor s = before.constants.length := by
  rw [hs.cursor, ha]
  simp [Fragment.program, Fragment.size, hn]

theorem Aligned.eq_followedBy (hs : (before ++ f ++ after).program.Aligned s)
    (hn : before.code.countP Opcode.isNumber = before.constants.length)
    (ha : (before ++ f ++ after).program.address s = before.size) :
    (s.on f).followedBy after = s := by
  have hcode : s.code = f.code ++ after.code := by
    rw [hs.code, ha]
    simp [Fragment.program, Fragment.size]
  have hconstants : s.constants = f.constants ++ after.constants := by
    rw [hs.constants, hs.cursor_eq hn ha]
    simp [Fragment.program]
  simp only [State.on, State.followedBy, ← hcode, ← hconstants]

theorem State.Leads.address_followedBy {n : Nat} (h : (s.on f).Leads env n t)
    (before after : Fragment) :
    (before ++ f ++ after).program.address (t.followedBy after) + t.code.length =
      before.size + f.size := by
  have hle : n + t.code.length ≤ f.code.length := h.length_le
  simp only [address, Fragment.program, State.followedBy, Fragment.append_code, Fragment.size,
    List.length_append]
  omega

theorem cursor_followedBy (h : t.constants = []) :
    (before ++ f ++ after).program.cursor (t.followedBy after) =
      before.constants.length + f.constants.length := by
  simp only [cursor, Fragment.program, State.followedBy, Fragment.append_constants, h,
    List.length_append, List.length_nil]
  omega

theorem tracks_of_leads {n : Nat} (hf : f.Closed)
    (hn : before.code.countP Opcode.isNumber = before.constants.length)
    (hs : (before ++ f ++ after).program.Aligned s)
    (ha : (before ++ f ++ after).program.address s = before.size)
    (h : (s.on f).Leads env n t) : (before ++ f ++ after).program.Tracks f after env s n t := by
  have halike {m : Nat} {u : State} (hu : (s.on f).Leads env m u) :
      s.Leads env m (u.followedBy after) := by
    have hu' : ((s.on f).followedBy after).Leads env m (u.followedBy after) := hu.followedBy hf
    rwa [hs.eq_followedBy hn ha] at hu'
  refine ⟨h, fun m u _ => halike, fun m u hm hu => ?_⟩
  obtain ⟨v, w, hv, hstep⟩ := h.exists_step hm
  obtain rfl := hu.unique (halike hv)
  have hpos : 0 < v.code.length := List.length_pos_iff.mpr (State.code_ne_nil_of_next hstep)
  have hle : m + v.code.length ≤ f.size := hv.length_le
  have hsum := hv.address_followedBy before after
  omega

/-- It does not matter what the instructions do or what stands around them. -/
theorem runsThrough_of_closed (hf : f.Closed)
    (hn : before.code.countP Opcode.isNumber = before.constants.length)
    (hs : (before ++ f ++ after).program.Aligned s)
    (ha : (before ++ f ++ after).program.address s = before.size) (env : Environment) :
    (before ++ f ++ after).program.RunsThrough f after env s := by
  have hstart : (s.on f).Leads env 0 (s.on f) := .refl
  obtain ⟨n, t, ht, hstop⟩ := hstart.exists_stop
  have htracks := tracks_of_leads hf hn hs ha ht
  have hclosed := ht.closed hf
  have hrun : s.run env = (t.followedBy after).run env :=
    (htracks.alike n t (Nat.le_refl n) ht).run_eq
  have hsum := ht.address_followedBy before after
  obtain hnil | ⟨e, random, hfail⟩ := hstop
  · have hnone : t.constants = [] := by
      have hnum : t.code.countP Opcode.isNumber = t.constants.length := hclosed.numbers
      rw [hnil] at hnum
      exact List.length_eq_zero_iff.mp hnum.symm
    refine .leaves htracks (State.step_eq_halt_iff.mpr hnil) ?_ ?_ hrun
    · rw [hnil, List.length_nil] at hsum
      omega
    · rw [cursor_followedBy hnone, hs.cursor_eq hn ha]
  · have hne := State.code_ne_nil_of_fail hfail
    have hpos : 0 < t.code.length := List.length_pos_iff.mpr hne
    have hfail' : (t.followedBy after).step env = .fail e random := by
      rw [State.step_followedBy hclosed hne, hfail]
      rfl
    exact .fails htracks (by omega) hfail hfail' (hrun.trans (State.run_fail hfail'))

end Program
end FormulaMachine
