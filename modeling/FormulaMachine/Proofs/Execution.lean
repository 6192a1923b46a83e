import FormulaMachine.Proofs.Simulation

/-!
Runs of any code that a program may have, whether or not it is the code of an expression. Branches
and jumps may lead across one another, over numbers and into the middle of other choices. The
constants stay those of the numbers still to come, because nothing is passed over without them.
-/
namespace FormulaMachine.Program

variable {env : Environment} {random left : RandomSource} {p : Program} {code : List Opcode}
  {constants : List Float} {op : Opcode} {e : Error} {x : Float} {n : Nat}

theorem isNumber_of_ne (hop : op ≠ .number) : op.isNumber = false := by
  cases op <;> first | rfl | exact absurd rfl hop

/-- The errors of a machine that has lost its place. -/
def Astray (e : Error) : Prop :=
  e = damaged "CONSTANT OUT OF RANGE" ∨ e = damaged "JUMP OUT OF RANGE"

namespace State

variable {s t : State}

/-- From `s` to `t`, `k` instructions are passed, and with them the constants of their numbers. -/
structure Passes (s : State) (k : Nat) (t : State) : Prop where
  le : k ≤ s.code.length
  code : t.code = s.code.drop k
  constants : t.constants = s.constants.drop ((s.code.take k).countP Opcode.isNumber)

/-- Operands, NaN and random words have no part in it. -/
theorem passes_zero (hc : t.code = s.code) (hk : t.constants = s.constants) : s.Passes 0 t :=
  ⟨Nat.zero_le _, hc, hk⟩

theorem passes_push (h : s.push x = .next t) : s.Passes 0 t := by
  unfold push at h
  split at h
  · cases h
    exact passes_zero rfl rfl
  · cases h

theorem passes_load {x? : Option Float} {detail : String} (h : s.load x? detail = .next t) :
    s.Passes 0 t := by
  unfold load at h
  split at h
  · exact passes_push h
  · cases h

theorem passes_skip (h : s.skip n = .next t) : s.Passes n t := by
  unfold skip at h
  split at h
  · next hn =>
    cases h
    exact ⟨hn, rfl, rfl⟩
  · cases h

theorem passes_pop {use : Float → State → Step} (h : s.pop use = .next t)
    (huse : ∀ x u, use x u = .next t → ∃ k, u.Passes k t) : ∃ k, s.Passes k t := by
  unfold pop at h
  split at h
  · obtain ⟨k, hk⟩ := huse _ _ h
    exact ⟨k, hk.le, hk.code, hk.constants⟩
  · cases h

theorem passes_pop₂ {use : Float → Float → State → Step} (h : s.pop₂ use = .next t)
    (huse : ∀ x y u, use x y u = .next t → u.Passes 0 t) : s.Passes 0 t := by
  unfold pop₂ at h
  split at h
  · have hk := huse _ _ _ h
    exact ⟨hk.le, hk.code, hk.constants⟩
  · cases h

theorem passes_perform (hop : op ≠ .number) (h : s.perform env op = .next t) :
    ∃ k, s.Passes k t := by
  cases op <;> rw [perform] at h
  case number => exact absurd rfl hop
  case pi | euler => exact ⟨0, passes_push h⟩
  case var | ref => exact ⟨0, passes_load h⟩
  case branch n =>
    refine passes_pop h fun x u hu => ?_
    split at hu
    · cases hu
      exact ⟨0, passes_zero rfl rfl⟩
    · exact ⟨n, passes_skip hu⟩
  case jump n => exact ⟨n, passes_skip h⟩
  case endIf =>
    cases h
    exact ⟨0, passes_zero rfl rfl⟩
  case negate => exact passes_pop h fun x u hu => ⟨0, passes_push hu⟩
  case binary => exact ⟨0, passes_pop₂ h fun x y u hu => passes_push hu⟩
  case call f =>
    refine passes_pop h fun x u hu => ⟨0, ?_⟩
    have hk := passes_push hu
    exact ⟨hk.le, hk.code, hk.constants⟩
  case call₂ => exact ⟨0, passes_pop₂ h fun x y u hu => passes_push hu⟩

/-- A step passes at least the instruction that it does. -/
theorem passes_step (h : s.step env = .next t) : ∃ k, 0 < k ∧ s.Passes k t := by
  unfold step at h
  split at h
  · cases h
  · next op code hs =>
    by_cases hop : op = .number
    · subst hop
      have hk := passes_load h
      refine ⟨1, Nat.one_pos, ?_, ?_, ?_⟩
      · simp [hs]
      · simpa [hs] using hk.code
      · simpa [hs, Opcode.isNumber] using hk.constants
    · obtain ⟨k, hk⟩ := passes_perform hop h
      have hn := isNumber_of_ne hop
      refine ⟨k + 1, Nat.succ_pos k, ?_, ?_, ?_⟩
      · simpa [hs] using hk.le
      · simpa [hs] using hk.code
      · simpa [hs, hn] using hk.constants

theorem not_astray_push (h : s.push x = .fail e left) : ¬Astray e := by
  unfold push Stack.push at h
  split at h
  · cases h
  · next hp =>
    split at hp <;> cases hp
    cases h
    rintro (he | he) <;> cases he

theorem not_astray_underflow : ¬Astray Stack.underflow := by
  rintro (he | he) <;> exact absurd he (by decide)

theorem astray_load {x? : Option Float} {detail : String} (h : s.load x? detail = .fail e left)
    (he : Astray e) : x? = none ∧ e = damaged detail := by
  unfold load at h
  split at h
  · exact absurd he (not_astray_push h)
  · cases h
    exact ⟨rfl, rfl⟩

theorem astray_skip (h : s.skip n = .fail e left) : s.code.length < n := by
  unfold skip at h
  split at h
  · cases h
  · next hn => exact Nat.lt_of_not_le hn

theorem pop_fail {use : Float → State → Step} (h : s.pop use = .fail e left) :
    e = Stack.underflow ∨ ∃ x items, s.operands.items = x :: items ∧
      use x { s with operands := { s.operands with items } } = .fail e left := by
  unfold pop Stack.pop at h
  split at h
  · next hp =>
    split at hp <;> cases hp
    next items hi => exact .inr ⟨_, items, hi, h⟩
  · next hp =>
    split at hp <;> cases hp
    cases h
    exact .inl rfl

theorem astray_pop {use : Float → State → Step} (h : s.pop use = .fail e left) (he : Astray e) :
    ∃ x u, u.code = s.code ∧ use x u = .fail e left := by
  obtain rfl | ⟨x, items, -, h⟩ := pop_fail h
  · exact absurd he not_astray_underflow
  · exact ⟨x, { s with operands := { s.operands with items } }, rfl, h⟩

theorem astray_pop₂ {use : Float → Float → State → Step} (h : s.pop₂ use = .fail e left)
    (he : Astray e) : ∃ x y u, use x y u = .fail e left := by
  unfold pop₂ Stack.pop₂ at h
  split at h
  · next hp => exact ⟨_, _, _, h⟩
  · next hp =>
    split at hp <;> cases hp <;> cases h <;> exact absurd he not_astray_underflow

/-- Only two things lead astray: a number without a constant, and skipping more instructions than
there are. -/
theorem astray_perform (h : s.perform env op = .fail e left) (he : Astray e) :
    op = .number ∧ s.constants = [] ∨ ∃ n, op.skip? = some n ∧ s.code.length < n := by
  cases op <;> rw [perform] at h
  case number => exact .inl ⟨rfl, List.head?_eq_none_iff.mp (astray_load h he).1⟩
  case pi | euler => exact absurd he (not_astray_push h)
  case var | ref =>
    obtain ⟨-, rfl⟩ := astray_load h he
    rcases he with he | he <;> exact absurd he (by decide)
  case branch n =>
    obtain ⟨x, u, hu, h⟩ := astray_pop h he
    split at h
    · cases h
    · exact .inr ⟨n, rfl, hu ▸ astray_skip h⟩
  case jump n => exact .inr ⟨n, rfl, astray_skip h⟩
  case endIf => cases h
  case negate | call =>
    obtain ⟨x, u, -, h⟩ := astray_pop h he
    exact absurd he (not_astray_push h)
  case binary | call₂ =>
    obtain ⟨x, y, u, h⟩ := astray_pop₂ h he
    exact absurd he (not_astray_push h)

theorem not_astray_finish (h : s.finish = .error e) : ¬Astray e := by
  unfold finish at h
  split at h <;> cases h
  · exact not_astray_underflow
  · rintro (he | he) <;> exact absurd he (by decide)

end State

variable {s t : State}

/-- The address of the instruction that comes next. -/
def address (p : Program) (s : State) : Nat := p.code.length - s.code.length

/-- How many constants have been loaded or passed over. -/
def cursor (p : Program) (s : State) : Nat := p.constants.length - s.constants.length

/-- A state stands at an address of the program and has had as many constants as there are numbers
below it. -/
structure Aligned (p : Program) (s : State) : Prop where
  code : s.code = p.code.drop (p.address s)
  constants : s.constants = p.constants.drop (p.cursor s)
  cursor : p.cursor s = (p.code.take (p.address s)).countP Opcode.isNumber

theorem countP_take_le (p : Program) (a : Nat) :
    (p.code.take a).countP Opcode.isNumber ≤ p.code.countP Opcode.isNumber :=
  (List.take_sublist a p.code).countP_le

theorem aligned_at {a : Nat} (hn : p.code.countP Opcode.isNumber = p.constants.length)
    (ha : a ≤ p.code.length) (hc : s.code = p.code.drop a)
    (hk : s.constants = p.constants.drop ((p.code.take a).countP Opcode.isNumber)) :
    p.address s = a ∧ p.Aligned s := by
  have haddr : p.address s = a := by
    rw [address, hc, List.length_drop]
    omega
  have hcur : p.cursor s = (p.code.take a).countP Opcode.isNumber := by
    have hle := countP_take_le p a
    rw [Program.cursor, hk, List.length_drop]
    omega
  exact ⟨haddr, haddr.symm ▸ hc, hcur.symm ▸ hk, haddr.symm ▸ hcur⟩

/-- Nothing is asked of the instructions here, so jumps may cross as they like. -/
theorem Aligned.pass {k : Nat} (hn : p.code.countP Opcode.isNumber = p.constants.length)
    (hs : p.Aligned s) (h : s.Passes k t) : p.address t = p.address s + k ∧ p.Aligned t := by
  have hle : p.address s + k ≤ p.code.length := by
    have hk := h.le
    have hlen : s.code.length = p.code.length - p.address s := by
      have := congrArg List.length hs.code
      rwa [List.length_drop] at this
    have haddr : p.address s ≤ p.code.length := Nat.sub_le _ _
    omega
  refine aligned_at hn hle ?_ ?_
  · rw [h.code, hs.code, List.drop_drop]
  · rw [h.constants, hs.constants, List.drop_drop, List.take_add, List.countP_append, ← hs.cursor,
      ← hs.code]

theorem Aligned.getElem? (hs : p.Aligned s) : p.code[p.address s]? = s.code.head? := by
  rw [hs.code, List.head?_drop]

theorem Aligned.length_le (hs : p.Aligned s) : p.address s + s.code.length = p.code.length := by
  have hlen := congrArg List.length hs.code
  have haddr : p.address s ≤ p.code.length := Nat.sub_le _ _
  rw [List.length_drop] at hlen
  omega

/-! ### Programs that are not refused -/

theorem of_ofCode? (h : ofCode? code constants = .ok p) : p = { code, constants } ∧
    code.countP Opcode.isNumber = constants.length ∧ targetsWithin code.length 0 code = true := by
  unfold ofCode? at h
  split at h
  · cases h
  · next hn =>
    split at h
    · cases h
    · next ht =>
      cases h
      exact ⟨rfl, by simpa using hn, by simpa using ht⟩

theorem target_le_of_targetsWithin {size address a : Nat}
    (h : targetsWithin size address code = true) (ha : code[a]? = some op)
    (hn : op.skip? = some n) : address + a + 1 + n ≤ size := by
  induction code generalizing address a with
  | nil => cases ha
  | cons o code ih =>
    rw [targetsWithin, Bool.and_eq_true] at h
    cases a with
    | zero =>
      obtain rfl : o = op := Option.some.inj ha
      simpa [hn] using h.1
    | succ a =>
      have := ih h.2 ha
      rwa [show address + 1 + a = address + (a + 1) by omega] at this

theorem skip_le_of_ofCode? (h : ofCode? code constants = .ok p) {a : Nat}
    (ha : code[a]? = some op) (hn : op.skip? = some n) : a + 1 + n ≤ code.length := by
  have ht := target_le_of_targetsWithin (of_ofCode? h).2.2 ha hn
  rwa [Nat.zero_add] at ht

theorem Aligned.constants_ne_nil (hn : p.code.countP Opcode.isNumber = p.constants.length)
    (hs : p.Aligned s) (hop : s.code.head? = some .number) :
    ∃ x, s.constants.head? = some x ∧ p.constants[p.cursor s]? = some x := by
  have hlt : p.cursor s < p.constants.length := by
    have hmem : Opcode.number ∈ p.code.drop (p.address s) :=
      hs.code ▸ List.mem_of_head? hop
    have hpos : 0 < (p.code.drop (p.address s)).countP Opcode.isNumber :=
      List.countP_pos_iff.mpr ⟨_, hmem, rfl⟩
    have hsplit : p.code.countP Opcode.isNumber =
        p.cursor s + (p.code.drop (p.address s)).countP Opcode.isNumber := by
      rw [hs.cursor, ← List.countP_append, List.take_append_drop]
    omega
  refine ⟨p.constants[p.cursor s], ?_, List.getElem?_eq_getElem hlt⟩
  rw [hs.constants, List.head?_drop, List.getElem?_eq_getElem hlt]

theorem Aligned.not_astray (h : ofCode? code constants = .ok p)
    (hs : p.Aligned s) (hf : s.step env = .fail e left) : ¬Astray e := by
  intro he
  obtain ⟨rfl, hn, -⟩ := of_ofCode? h
  unfold State.step at hf
  split at hf
  · cases hf
  · next op rest hc =>
    have hop : s.code.head? = some op := by rw [hc]; rfl
    rcases State.astray_perform hf he with ⟨rfl, hk⟩ | ⟨n, hskip, hlt⟩
    · obtain ⟨x, hx, -⟩ := hs.constants_ne_nil hn hop
      have hk : s.constants = [] := hk
      rw [hk] at hx
      cases hx
    · have hle := skip_le_of_ofCode? h (hs.getElem?.trans hop) hskip
      have hlen := hs.length_le
      simp only [hc, List.length_cons] at hlen hlt
      omega

/-! ### The listing -/

theorem linesFrom_number {a i : Nat} (hi : code[i]? = some .number)
    (hx : constants[(code.take i).countP Opcode.isNumber]? = some x) :
    (linesFrom a code constants)[i]? =
      some s!"{addressText (a + i)} NUMERIC {Decimal.text x}" := by
  induction code generalizing a i constants with
  | nil => cases hi
  | cons op code ih =>
    cases i with
    | zero =>
      obtain rfl : op = .number := Option.some.inj hi
      cases constants with
      | nil => cases hx
      | cons y constants =>
        obtain rfl : y = x := Option.some.inj hx
        rfl
    | succ i =>
      have hi : code[i]? = some .number := hi
      rw [show a + (i + 1) = a + 1 + i by omega]
      by_cases hop : op = .number
      · subst hop
        cases constants with
        | nil => cases hx
        | cons y constants =>
          have hx : constants[(code.take i).countP Opcode.isNumber]? = some x := by
            rwa [List.take_succ_cons, List.countP_cons_of_pos rfl, List.getElem?_cons_succ] at hx
          exact ih hi hx
      · have hn := isNumber_of_ne hop
        have hx : constants[(code.take i).countP Opcode.isNumber]? = some x := by
          simpa [hn] using hx
        have hl : (linesFrom a (op :: code) constants)[i + 1]? =
            (linesFrom (a + 1) code constants)[i]? := by
          cases op <;> first | rfl | exact absurd rfl hop
        rw [hl]
        exact ih hi hx

/-- The constant that the next number pushes, and the line of the listing that shows it. -/
def PushesListed (p : Program) (env : Environment) (s : State) : Prop :=
  ∃ x, p.constants[p.cursor s]? = some x ∧
    p.listing[p.address s]? =
      some s!"{addressText (p.address s)} NUMERIC {Decimal.text x}" ∧
    s.step env =
      ({ s with code := s.code.tail, constants := s.constants.tail } : State).push x

theorem Aligned.pushesListed (hn : p.code.countP Opcode.isNumber = p.constants.length)
    (hs : p.Aligned s) (hop : p.code[p.address s]? = some .number) : p.PushesListed env s := by
  have hhead : s.code.head? = some .number := hs.getElem?.symm.trans hop
  obtain ⟨x, hx, hcur⟩ := hs.constants_ne_nil hn hhead
  refine ⟨x, hcur, ?_, ?_⟩
  · have hl := linesFrom_number (a := 0) hop (hs.cursor ▸ hcur)
    rwa [Nat.zero_add] at hl
  · cases hc : s.code with
    | nil => rw [hc] at hhead; cases hhead
    | cons op rest =>
      rw [hc] at hhead
      obtain rfl : op = .number := Option.some.inj hhead
      simp only [State.step, hc, State.perform, hx, State.load, List.tail_cons]

/-! ### Whole runs -/

/-- The state that a run starts in. -/
def start (p : Program) (random : RandomSource) : State :=
  { code := p.code, constants := p.constants, random }

/-- The states of a run, each with how many instructions have been done before it. -/
inductive Reaches (p : Program) (env : Environment) (random : RandomSource) : Nat → State → Prop
  | start : Reaches p env random 0 (p.start random)
  | step {n : Nat} {s t : State} : Reaches p env random n s → s.step env = .next t →
      Reaches p env random (n + 1) t

theorem aligned_start (hn : p.code.countP Opcode.isNumber = p.constants.length) :
    p.Aligned (p.start random) :=
  (aligned_at hn (Nat.zero_le _) rfl rfl).2

theorem Reaches.aligned (hn : p.code.countP Opcode.isNumber = p.constants.length)
    (h : p.Reaches env random n s) : n ≤ p.address s ∧ p.Aligned s := by
  induction h with
  | start => exact ⟨Nat.zero_le _, aligned_start hn⟩
  | step _ hstep ih =>
    obtain ⟨hle, hs⟩ := ih
    obtain ⟨k, hpos, hk⟩ := State.passes_step hstep
    obtain ⟨haddr, ht⟩ := hs.pass hn hk
    exact ⟨by omega, ht⟩

/-- How many instructions a run does until it ends, the one that fails among them. -/
inductive Ends (p : Program) (env : Environment) (random : RandomSource) : Nat → Prop
  | halts {n : Nat} {s : State} : p.Reaches env random n s → s.step env = .halt →
      p.run env random = (s.finish, s.random) → Ends p env random n
  | fails {n : Nat} {s : State} {e : Error} {left : RandomSource} : p.Reaches env random n s →
      s.step env = .fail e left → p.run env random = (.error e, left) → Ends p env random (n + 1)

theorem Reaches.ends {n : Nat} {s : State} (h : p.Reaches env random n s)
    (hrun : p.run env random = s.run env) : ∃ m, p.Ends env random m := by
  cases hs : s.step env with
  | halt => exact ⟨n, .halts h hs (hrun.trans (State.run_halt hs))⟩
  | fail e left => exact ⟨n + 1, .fails h hs (hrun.trans (State.run_fail hs))⟩
  | next t => exact (h.step hs).ends (hrun.trans (State.run_next hs))
termination_by s.code.length
decreasing_by exact State.step_length_lt hs

theorem exists_ends (p : Program) (env : Environment) (random : RandomSource) :
    ∃ n, p.Ends env random n :=
  Reaches.ends .start rfl

theorem Ends.le_size (hn : p.code.countP Opcode.isNumber = p.constants.length)
    (h : p.Ends env random n) : n ≤ p.size := by
  cases h with
  | halts hs _ _ => exact Nat.le_trans (hs.aligned hn).1 (Nat.sub_le _ _)
  | @fails n s e left hs hstep _ =>
    obtain ⟨hle, ha⟩ := hs.aligned hn
    have hpos : 0 < s.code.length := by
      rw [List.length_pos_iff]
      intro hc
      simp [State.step, hc] at hstep
    have hlen := ha.length_le
    simp only [size]
    omega

/-- Whatever code a program has, its runs never lose their place. Every number pushes the constant
that the listing shows in its line, on whichever way it is come to. -/
theorem run_aligned (h : ofCode? code constants = .ok p)
    (env : Environment) (random : RandomSource) :
    (∀ n s, p.Reaches env random n s →
      p.Aligned s ∧ n ≤ p.address s ∧ p.address s ≤ p.size ∧
      (∀ t, s.step env = .next t → p.address s < p.address t) ∧
      (∀ e left, s.step env = .fail e left → ¬Astray e) ∧
      (p.code[p.address s]? = some .number → p.PushesListed env s)) ∧
    (∃ n ≤ p.size, p.Ends env random n) ∧
    (∀ e, (p.run env random).1 = .error e → ¬Astray e) := by
  obtain ⟨rfl, hn, -⟩ := of_ofCode? h
  have hends : ∃ n, Ends { code, constants } env random n := Reaches.ends .start rfl
  refine ⟨fun n s hs => ?_, ?_, fun e he => ?_⟩
  · obtain ⟨hle, ha⟩ := hs.aligned hn
    refine ⟨ha, hle, Nat.sub_le _ _, fun t ht => ?_, fun e left => ha.not_astray h,
      ha.pushesListed hn⟩
    obtain ⟨k, hpos, hk⟩ := State.passes_step ht
    have haddr := (ha.pass hn hk).1
    omega
  · obtain ⟨n, hend⟩ := hends
    exact ⟨n, hend.le_size hn, hend⟩
  · obtain ⟨n, hend⟩ := hends
    cases hend with
    | halts hs hstep hrun =>
      rw [hrun] at he
      exact State.not_astray_finish he
    | fails hs hstep hrun =>
      rw [hrun] at he
      obtain rfl := Except.error.inj he
      exact (hs.aligned hn).2.not_astray h hstep

/-- The branch leads into what the jump passes over, so the number at address 6 is come to in two
ways. Either way three constants have gone by. -/
theorem run_aligned_crossing : ∃ p,
    ofCode? [.number, .branch 3, .number, .jump 2, .number, .endIf, .number] [0, 1, 2, 3] = .ok p ∧
    ∀ n s, p.Reaches {} (.cycle []) n s → p.address s = 6 → p.cursor s = 3 := by
  have hp : ofCode? [.number, .branch 3, .number, .jump 2, .number, .endIf, .number] [0, 1, 2, 3] =
    .ok _ := rfl
  refine ⟨_, hp, fun n s hs haddr => ?_⟩
  have ha := ((run_aligned hp {} (.cycle [])).1 n s hs).1.cursor
  rw [haddr] at ha
  exact ha

end FormulaMachine.Program
