import FormulaMachine.Proofs.Execution.Words

/-!
Targets in words. A sum that is too large for a word is no error to the check of a program: a
machine that checks its sums panics, and one that lets them wrap accepts the program. Runs of what is
accepted still never skip to a wrong place. They skip exactly as many instructions as they are told
to, or they fail where a sum wraps.
-/
namespace FormulaMachine.Program

variable {o : Overflow} {env : Environment} {random left : RandomSource} {p : Program}
  {code : List Opcode} {constants : List Float} {op : Opcode} {s t : State} {m : Machine}
  {f : Fault} {a size address n k : Nat}

/-! ### The check -/

theorem checkTarget_of_none (hn : op.skip? = none) : checkTarget o size address op = .ok () := by
  rw [checkTarget, hn]

theorem checkTarget_of_some (hn : op.skip? = some n) (h : address + 1 < UInt64.size) :
    checkTarget o size address op = (do
      let target ← o.add (address + 1) n
      if size < target then .error (.error (damaged "JUMP OUT OF RANGE")) else .ok ()) := by
  rw [checkTarget, hn, Overflow.add_of_lt h]
  rfl

theorem checkTarget_of_add {target : Nat} (hn : op.skip? = some n) (h : address + 1 < UInt64.size)
    (hadd : o.add (address + 1) n = .ok target) (hle : target ≤ size) :
    checkTarget o size address op = .ok () := by
  rw [checkTarget_of_some hn h, hadd]
  exact if_neg (Nat.not_lt.mpr hle)

theorem checkTarget_of_le (hn : op.skip? = some n) (hs : size < UInt64.size)
    (h : address + 1 + n ≤ size) : checkTarget o size address op = .ok () :=
  checkTarget_of_add hn (by omega) (Overflow.add_of_lt (by omega)) h

theorem checkTarget_of_lt (hn : op.skip? = some n) (h : size < address + 1 + n)
    (hl : address + 1 + n < UInt64.size) :
    checkTarget o size address op = .error (.error (damaged "JUMP OUT OF RANGE")) := by
  rw [checkTarget_of_some hn (by omega), Overflow.add_of_lt hl]
  exact if_pos h

theorem checkTarget_panics (hn : op.skip? = some n) (ha : address + 1 < UInt64.size)
    (h : UInt64.size ≤ address + 1 + n) :
    checkTarget .panics size address op = .error .panic := by
  rw [checkTarget_of_some hn ha, Overflow.panics_add_of_le h]
  rfl

/-- A sum that wraps leads back, and nothing is wrong with that. -/
theorem checkTarget_wraps (hn : op.skip? = some n) (hl : n < UInt64.size) (ha : address < size)
    (hs : size < UInt64.size) (h : UInt64.size ≤ address + 1 + n) :
    checkTarget .wraps size address op = .ok () :=
  checkTarget_of_add hn (by omega) (Overflow.wraps_add_of_le h) (by omega)

theorem checkTargets_eq_ok_iff : checkTargets o size address code = .ok () ↔
    ∀ a op, code[a]? = some op → checkTarget o size (address + a) op = .ok () := by
  induction code generalizing address with
  | nil => simp [checkTargets]
  | cons op code ih =>
    have hshift (a : Nat) : address + 1 + a = address + (a + 1) := by omega
    rw [checkTargets]
    cases hop : checkTarget o size address op with
    | error f =>
      refine ⟨nofun, fun h => ?_⟩
      have hop' := h 0 op rfl
      rw [Nat.add_zero, hop] at hop'
      cases hop'
    | ok _ =>
      refine ih.trans ⟨fun h a op' ha => ?_, fun h a op' ha => ?_⟩
      · cases a with
        | zero =>
          obtain rfl : op = op' := Option.some.inj ha
          exact hop
        | succ a => exact hshift a ▸ h a op' ha
      · exact (hshift a).symm ▸ h (a + 1) op' ha

/-- The first instruction that is refused is to blame. -/
theorem checkTargets_eq_error_iff : checkTargets o size address code = .error f ↔
    ∃ a op, code[a]? = some op ∧ checkTarget o size (address + a) op = .error f ∧
      ∀ b < a, ∀ op', code[b]? = some op' → checkTarget o size (address + b) op' = .ok () := by
  induction code generalizing address with
  | nil => simp [checkTargets]
  | cons op code ih =>
    have hshift (a : Nat) : address + 1 + a = address + (a + 1) := by omega
    rw [checkTargets]
    cases hop : checkTarget o size address op with
    | error f' =>
      constructor
      · intro h
        cases h
        exact ⟨0, op, rfl, hop, nofun⟩
      · rintro ⟨a, op', ha, hf, hfirst⟩
        cases a with
        | zero =>
          obtain rfl : op = op' := Option.some.inj ha
          rw [Nat.add_zero, hop] at hf
          rw [hf]
          rfl
        | succ a =>
          have hop' := hfirst 0 (Nat.succ_pos a) op rfl
          rw [Nat.add_zero, hop] at hop'
          cases hop'
    | ok _ =>
      refine ih.trans ⟨?_, ?_⟩
      · rintro ⟨a, op', ha, hf, hfirst⟩
        refine ⟨a + 1, op', ha, hshift a ▸ hf, fun b hb op'' hb' => ?_⟩
        cases b with
        | zero =>
          obtain rfl : op = op'' := Option.some.inj hb'
          exact hop
        | succ b => exact hshift b ▸ hfirst b (Nat.lt_of_succ_lt_succ hb) op'' hb'
      · rintro ⟨a, op', ha, hf, hfirst⟩
        cases a with
        | zero =>
          obtain rfl : op = op' := Option.some.inj ha
          rw [Nat.add_zero, hop] at hf
          cases hf
        | succ a =>
          exact ⟨a, op', ha, (hshift a).symm ▸ hf, fun b hb op'' hb' =>
            (hshift b).symm ▸ hfirst (b + 1) (Nat.succ_lt_succ hb) op'' hb'⟩

theorem ofWords?_eq_ok_iff : ofWords? o code constants = .ok p ↔ p = { code, constants } ∧
    code.countP Opcode.isNumber = constants.length ∧
      checkTargets o code.length 0 code = .ok () := by
  by_cases hn : code.countP Opcode.isNumber = constants.length
  · rw [ofWords?, if_neg (not_not_intro hn)]
    cases checkTargets o code.length 0 code with
    | error f => exact ⟨nofun, fun h => nomatch h.2.2⟩
    | ok _ => exact ⟨fun h => ⟨(Except.ok.inj h).symm, hn, rfl⟩, fun h => congrArg _ h.1.symm⟩
  · rw [ofWords?, if_pos hn]
    exact ⟨nofun, fun h => absurd h.2.1 hn⟩

theorem ofWords?_eq_panic_iff : ofWords? o code constants = .error .panic ↔
    code.countP Opcode.isNumber = constants.length ∧
      checkTargets o code.length 0 code = .error .panic := by
  by_cases hn : code.countP Opcode.isNumber = constants.length
  · rw [ofWords?, if_neg (not_not_intro hn)]
    cases checkTargets o code.length 0 code with
    | error f =>
      exact ⟨fun h => ⟨hn, congrArg _ (Except.error.inj h)⟩,
        fun h => congrArg _ (Except.error.inj h.2)⟩
    | ok _ => exact ⟨nofun, fun h => nomatch h.2⟩
  · rw [ofWords?, if_pos hn]
    exact ⟨nofun, fun h => absurd h.1 hn⟩

theorem hasTarget_iff {b : Nat} (hop : code[a]? = some op) (hn : op.skip? = some n) :
    HasTarget code a b ↔ b = a + 1 + n := by
  refine ⟨fun ⟨op', n', hop', hn', hb⟩ => ?_, fun hb => ⟨op, n, hop, hn, hb⟩⟩
  obtain rfl : op = op' := Option.some.inj (hop.symm.trans hop')
  obtain rfl : n = n' := Option.some.inj (hn.symm.trans hn')
  exact hb

theorem not_hasTarget {b : Nat} (hop : code[a]? = some op) (hn : op.skip? = none) :
    ¬HasTarget code a b := by
  rintro ⟨op', n, hop', hn', -⟩
  obtain rfl : op = op' := Option.some.inj (hop.symm.trans hop')
  rw [hn] at hn'
  cases hn'

/-- An instruction is accepted if its sum is within the code. Where sums wrap, it is accepted if the
sum is no word, too. -/
theorem OfWords.checkTarget_eq_ok_iff (hw : OfWords code) (hop : code[a]? = some op) :
    checkTarget o code.length a op = .ok () ↔ ∀ b, HasTarget code a b →
      b ≤ code.length ∨ o = .wraps ∧ UInt64.size ≤ b := by
  have hlt : a < code.length := (List.getElem?_eq_some_iff.mp hop).1
  have hlength := hw.length_lt
  cases hn : op.skip? with
  | none => exact ⟨fun _ b hb => absurd hb (not_hasTarget hop hn), fun _ => checkTarget_of_none hn⟩
  | some n =>
    have hskip := hw.skip_lt op (List.mem_of_getElem? hop) n hn
    simp only [hasTarget_iff hop hn, forall_eq]
    by_cases hle : a + 1 + n ≤ code.length
    · exact ⟨fun _ => .inl hle, fun _ => checkTarget_of_le hn hlength hle⟩
    by_cases hword : a + 1 + n < UInt64.size
    · rw [checkTarget_of_lt hn (Nat.lt_of_not_le hle) hword]
      refine ⟨nofun, fun h => ?_⟩
      omega
    have hbeyond := Nat.le_of_not_lt hword
    cases o with
    | panics =>
      rw [checkTarget_panics hn (by omega) hbeyond]
      exact ⟨nofun, fun h => absurd h (by simp [hle])⟩
    | wraps =>
      exact ⟨fun _ => .inr ⟨rfl, hbeyond⟩, fun _ => checkTarget_wraps hn hskip hlt hlength hbeyond⟩

theorem OfWords.checkTarget_eq_panic_iff (hw : OfWords code) (hop : code[a]? = some op) :
    checkTarget o code.length a op = .error .panic ↔
      o = .panics ∧ ∃ b, HasTarget code a b ∧ UInt64.size ≤ b := by
  have hlt : a < code.length := (List.getElem?_eq_some_iff.mp hop).1
  have hlength := hw.length_lt
  cases hn : op.skip? with
  | none =>
    rw [checkTarget_of_none hn]
    exact ⟨nofun, fun ⟨_, b, hb, _⟩ => absurd hb (not_hasTarget hop hn)⟩
  | some n =>
    have hskip := hw.skip_lt op (List.mem_of_getElem? hop) n hn
    simp only [hasTarget_iff hop hn, exists_eq_left]
    by_cases hbeyond : UInt64.size ≤ a + 1 + n
    · cases o with
      | panics =>
        rw [checkTarget_panics hn (by omega) hbeyond]
        exact ⟨fun _ => ⟨rfl, hbeyond⟩, fun _ => rfl⟩
      | wraps =>
        rw [checkTarget_wraps hn hskip hlt hlength hbeyond]
        exact ⟨nofun, nofun⟩
    have hnot : checkTarget o code.length a op ≠ .error .panic := by
      by_cases hle : a + 1 + n ≤ code.length
      · rw [checkTarget_of_le hn hlength hle]
        nofun
      · rw [checkTarget_of_lt hn (Nat.lt_of_not_le hle) (Nat.lt_of_not_le hbeyond)]
        nofun
    exact ⟨fun h => absurd h hnot, fun h => absurd h.2 hbeyond⟩

theorem OfWords.ofWords?_eq_ok_iff (hw : OfWords code) (constants : List Float) :
    ofWords? o code constants = .ok { code, constants } ↔
      code.countP Opcode.isNumber = constants.length ∧
        ∀ a b, HasTarget code a b → b ≤ code.length ∨ o = .wraps ∧ UInt64.size ≤ b := by
  rw [Program.ofWords?_eq_ok_iff, checkTargets_eq_ok_iff]
  simp only [true_and, Nat.zero_add]
  refine and_congr_right fun _ => ⟨fun h a b hb => ?_, fun h a op hop => ?_⟩
  · obtain ⟨op, n, hop, -, -⟩ := id hb
    exact (hw.checkTarget_eq_ok_iff hop).mp (h a op hop) b hb
  · exact (hw.checkTarget_eq_ok_iff hop).mpr (h a)

theorem OfWords.ofWords?_eq_panic_iff (hw : OfWords code) (constants : List Float) :
    ofWords? o code constants = .error .panic ↔
      o = .panics ∧ code.countP Opcode.isNumber = constants.length ∧
        ∃ a b, HasTarget code a b ∧ UInt64.size ≤ b ∧
          ∀ a' < a, ∀ b', HasTarget code a' b' → b' ≤ code.length := by
  rw [Program.ofWords?_eq_panic_iff, checkTargets_eq_error_iff]
  simp only [Nat.zero_add]
  constructor
  · rintro ⟨hn, a, op, hop, hpanic, hfirst⟩
    obtain ⟨rfl, b, hb, hbeyond⟩ := (hw.checkTarget_eq_panic_iff hop).mp hpanic
    refine ⟨rfl, hn, a, b, hb, hbeyond, fun a' ha' b' hb' => ?_⟩
    obtain ⟨op', n, hop', -, -⟩ := id hb'
    have hok := (hw.checkTarget_eq_ok_iff hop').mp (hfirst a' ha' op' hop') b' hb'
    exact hok.resolve_right (by simp)
  · rintro ⟨rfl, hn, a, b, hb, hbeyond, hfirst⟩
    obtain ⟨op, n, hop, -, -⟩ := id hb
    refine ⟨hn, a, op, hop, (hw.checkTarget_eq_panic_iff hop).mpr ⟨rfl, b, hb, hbeyond⟩, ?_⟩
    exact fun a' ha' op' hop' =>
      (hw.checkTarget_eq_ok_iff hop').mpr fun b' hb' => .inl (hfirst a' ha' b' hb')

/-! ### Steps -/

/-- The instruction that comes next skips `n` others. A branch does so if the value on top is
false. -/
inductive State.Skips (s : State) (n : Nat) : Prop
  | jump {code : List Opcode} : s.code = .jump n :: code → Skips s n
  | branch {code : List Opcode} {x : Float} {items : List Float} : s.code = .branch n :: code →
    s.operands.items = x :: items → isTrue x = false → Skips s n

namespace State

theorem Skips.exists_head (h : s.Skips n) :
    ∃ op, s.code.head? = some op ∧ op.skip? = some n := by
  cases h with
  | jump hc => exact ⟨.jump n, by rw [hc]; rfl, rfl⟩
  | branch hc _ _ => exact ⟨.branch n, by rw [hc]; rfl, rfl⟩

theorem Skips.step_eq (h : s.Skips n) (env : Environment) : ∃ operands,
    s.step env = ({ s with code := s.code.tail, operands } : State).skip n := by
  cases h with
  | jump hc => exact ⟨s.operands, by simp [step, hc, perform]⟩
  | @branch code x items hc hi hx =>
    exact ⟨{ s.operands with items }, by simp [step, hc, perform, pop, Stack.pop, hi, hx]⟩

theorem Skips.step_next (h : s.Skips n) (hn : n < s.code.length) (env : Environment) :
    ∃ t, s.step env = .next t ∧ t.code = s.code.drop (n + 1) := by
  obtain ⟨operands, hs⟩ := h.step_eq env
  have hle : n ≤ s.code.tail.length := by
    rw [List.length_tail]
    omega
  rw [hs, skip, if_pos hle]
  exact ⟨_, rfl, by rw [List.drop_tail]⟩

theorem Skips.step_fail (h : s.Skips n) (hn : s.code.length ≤ n) (env : Environment) :
    s.step env = .fail (damaged "JUMP OUT OF RANGE") s.random := by
  obtain ⟨operands, hs⟩ := h.step_eq env
  obtain ⟨op, hop, -⟩ := h.exists_head
  have hpos : 0 < s.code.length := List.length_pos_of_mem (List.mem_of_head? hop)
  have hlt : ¬n ≤ s.code.tail.length := by
    rw [List.length_tail]
    omega
  rw [hs, skip, if_neg hlt, State.fail]

/-- Nothing else fails like this. -/
theorem skips_of_step_fail (h : s.step env = .fail (damaged "JUMP OUT OF RANGE") left) :
    ∃ n, s.Skips n := by
  have ha : Astray (damaged "JUMP OUT OF RANGE") := .inr rfl
  unfold step at h
  split at h
  · cases h
  · next op code hc =>
    cases op <;> rw [perform] at h
    case jump n => exact ⟨n, .jump hc⟩
    case branch n =>
      obtain he | ⟨x, items, hi, h⟩ := pop_fail h
      · exact absurd (he ▸ ha) not_astray_underflow
      · split at h
        · cases h
        · next hx => exact ⟨n, .branch hc hi (Bool.eq_false_iff.mpr hx)⟩
    case number | var | ref => exact absurd (astray_load h ha).2 (by decide)
    case pi | euler => exact absurd ha (not_astray_push h)
    case endIf => cases h
    case negate | call =>
      obtain ⟨x, u, -, h⟩ := astray_pop h ha
      exact absurd ha (not_astray_push h)
    case binary | call₂ =>
      obtain ⟨x, y, u, h⟩ := astray_pop₂ h ha
      exact absurd ha (not_astray_push h)

end State

/-! ### Runs -/

theorem exists_skips_of_run
    (h : (p.run env random).1 = .error (damaged "JUMP OUT OF RANGE")) :
    ∃ k s n left, p.Reaches env random k s ∧ s.Skips n ∧
      s.step env = .fail (damaged "JUMP OUT OF RANGE") left := by
  obtain ⟨k, hend⟩ := p.exists_ends env random
  cases hend with
  | halts hs hstep hrun =>
    rw [hrun] at h
    exact absurd (.inr rfl) (State.not_astray_finish h)
  | fails hs hstep hrun =>
    rw [hrun] at h
    obtain rfl := Except.error.inj h
    obtain ⟨n, hn⟩ := State.skips_of_step_fail hstep
    exact ⟨_, _, n, _, hs, hn, hstep⟩

/-- The sum is exact and shows a place of the program, where the skip leads. -/
structure Machine.SkipsExactly (o : Overflow) (p : Program) (env : Environment) (m : Machine)
    (n : Nat) : Prop where
  add_eq : o.add (m.pc + 1) n = .ok (m.pc + 1 + n)
  le_size : m.pc + 1 + n ≤ p.size
  lands : ∃ t, m.step o p env = .next t ∧ t.pc = m.pc + 1 + n

/-- The sum is too large for a word, and the skip fails. -/
structure Machine.SkipsBeyond (p : Program) (env : Environment) (m : Machine) (n : Nat) : Prop where
  le_sum : UInt64.size ≤ m.pc + 1 + n
  fails : m.step .wraps p env = .fail (.error (damaged "JUMP OUT OF RANGE")) m.random

theorem runnable_of_ofWords? (hw : OfWords code) (h : ofWords? o code constants = .ok p) :
    Runnable o p := by
  obtain ⟨rfl, hn, -⟩ := ofWords?_eq_ok_iff.mp h
  have htargets := ((hw.ofWords?_eq_ok_iff constants).mp h).2
  refine ⟨hn, hw, ?_⟩
  cases o with
  | wraps => exact .inl rfl
  | panics =>
    refine .inr fun a b hb => Nat.lt_of_le_of_lt ?_ hw.length_lt
    exact (htargets a b hb).resolve_right (by simp)

theorem Machine.hasTarget_of_skips (hn : (m.state p).Skips n) :
    HasTarget p.code m.pc (m.pc + 1 + n) := by
  obtain ⟨op, hop, hskip⟩ := hn.exists_head
  exact ⟨op, n, List.head?_drop.symm.trans hop, hskip, rfl⟩

theorem Machine.Stands.skips_cases (hw : OfWords code) (h : ofWords? o code constants = .ok p)
    (hm : m.Stands p) (hn : (m.state p).Skips n) (env : Environment) :
    m.SkipsExactly o p env n ∨ o = .wraps ∧ m.SkipsBeyond p env n := by
  have hs := follows_step (runnable_of_ofWords? hw h) hm env
  have htarget := hasTarget_of_skips hn
  have hpc := hm.pc_le
  have hlength : (m.state p).code.length = p.size - m.pc := List.length_drop
  obtain ⟨rfl, -, -⟩ := ofWords?_eq_ok_iff.mp h
  have hsize : Program.size ⟨code, constants⟩ < UInt64.size := hw.length_lt
  obtain hle | ⟨rfl, hbeyond⟩ := ((hw.ofWords?_eq_ok_iff constants).mp h).2 _ _ htarget
  · have hle : m.pc + 1 + n ≤ Program.size ⟨code, constants⟩ := hle
    obtain ⟨s, hnext, hcode⟩ := hn.step_next (by omega) env
    generalize hstep : m.step o ⟨code, constants⟩ env = move at hs
    rw [hnext] at hs
    cases hs with
    | @next t ht =>
      have htpc := ht.pc_le
      have hleft := congrArg List.length hcode
      rw [List.length_drop, hlength] at hleft
      have htlength : (t.state ⟨code, constants⟩).code.length =
        Program.size ⟨code, constants⟩ - t.pc := List.length_drop
      exact .inl ⟨Overflow.add_of_lt (by omega), hle, t, hstep, by omega⟩
  · have hfail := hn.step_fail (by omega) env
    generalize hstep : m.step .wraps ⟨code, constants⟩ env = move at hs
    rw [hfail] at hs
    cases hs with
    | fail => exact .inr ⟨rfl, hbeyond, hstep⟩

/-! ### Exact sums -/

theorem targetsWithin_iff : targetsWithin size address code = true ↔
    ∀ a op n, code[a]? = some op → op.skip? = some n → address + a + 1 + n ≤ size := by
  refine ⟨fun h a op n => target_le_of_targetsWithin h, fun h => ?_⟩
  induction code generalizing address with
  | nil => rfl
  | cons o code ih =>
    rw [targetsWithin, Bool.and_eq_true]
    refine ⟨?_, ih fun a op n ha hn => ?_⟩
    · cases hn : o.skip? with
      | none => rfl
      | some n => exact decide_eq_true (h 0 o n rfl hn)
    · have := h (a + 1) op n ha hn
      rwa [show address + (a + 1) = address + 1 + a by omega] at this

theorem ofCode?_eq_ok_iff : ofCode? code constants = .ok p ↔ p = { code, constants } ∧
    code.countP Opcode.isNumber = constants.length ∧
      ∀ a b, HasTarget code a b → b ≤ code.length := by
  constructor
  · intro h
    obtain ⟨hp, hn, -⟩ := of_ofCode? h
    refine ⟨hp, hn, ?_⟩
    rintro a b ⟨op, n, hop, hskip, rfl⟩
    exact skip_le_of_ofCode? h hop hskip
  · rintro ⟨rfl, hn, htargets⟩
    have ht : targetsWithin code.length 0 code = true := by
      refine targetsWithin_iff.mpr fun a op n hop hskip => ?_
      rw [Nat.zero_add]
      exact htargets a _ ⟨op, n, hop, hskip, rfl⟩
    simp [ofCode?, hn, ht]

/-- A machine that checks its sums accepts what is accepted by exact sums. -/
theorem ofWords?_panics_eq_ok_iff (hw : OfWords code) :
    ofWords? .panics code constants = .ok p ↔ ofCode? code constants = .ok p := by
  rw [ofCode?_eq_ok_iff]
  constructor
  · intro h
    obtain ⟨rfl, -, -⟩ := ofWords?_eq_ok_iff.mp h
    obtain ⟨hn, htargets⟩ := (hw.ofWords?_eq_ok_iff constants).mp h
    exact ⟨rfl, hn, fun a b hb => (htargets a b hb).resolve_right (by simp)⟩
  · rintro ⟨rfl, hn, htargets⟩
    exact (hw.ofWords?_eq_ok_iff constants).mpr ⟨hn, fun a b hb => .inl (htargets a b hb)⟩

theorem ofWords_of_ofCode? (h : ofCode? code constants = .ok p)
    (hl : code.length < UInt64.size) : OfWords code where
  length_lt := hl
  skip_lt op hop n hn := by
    obtain ⟨a, ha⟩ := List.mem_iff_getElem?.mp hop
    have hle := skip_le_of_ofCode? h ha hn
    omega

/-- What is accepted by exact sums, as all that is compiled, is accepted by every machine and runs
the same in words. -/
theorem runWords_of_ofCode? (h : ofCode? code constants = .ok p) (hl : code.length < UInt64.size)
    (o : Overflow) : ofWords? o code constants = .ok p ∧ ∀ env random,
      p.runWords o env random = ((p.run env random).1.mapError .error, (p.run env random).2) := by
  have hw := ofWords_of_ofCode? h hl
  obtain ⟨rfl, hn, htargets⟩ := ofCode?_eq_ok_iff.mp h
  have hp : ofWords? o code constants = .ok { code, constants } :=
    (hw.ofWords?_eq_ok_iff constants).mpr ⟨hn, fun a b hb => .inl (htargets a b hb)⟩
  exact ⟨hp, runWords_eq (runnable_of_ofWords? hw hp)⟩

/-! ### Overflow -/

/-- Code is accepted if each of its sums is within the code; a sum that is too large for a word
makes a machine that checks its sums panic, and one that lets them wrap accept it. A run of what has
been accepted never panics. Its skips lead where their exact sums say, and only one whose sum has
wrapped makes it fail. -/
theorem ofWords?_exact_or_overflows (hw : OfWords code) (constants : List Float) :
    (∀ o, ofWords? o code constants = .ok { code, constants } ↔
      code.countP Opcode.isNumber = constants.length ∧
        ∀ a b, HasTarget code a b → b ≤ code.length ∨ o = .wraps ∧ UInt64.size ≤ b) ∧
    (∀ o, ofWords? o code constants = .error .panic ↔
      o = .panics ∧ code.countP Opcode.isNumber = constants.length ∧
        ∃ a b, HasTarget code a b ∧ UInt64.size ≤ b ∧
          ∀ a' < a, ∀ b', HasTarget code a' b' → b' ≤ code.length) ∧
    ∀ o p, ofWords? o code constants = .ok p → ∀ env random,
      (∀ k m n, p.ReachesWords o env random k m → (m.state p).Skips n →
        m.SkipsExactly o p env n ∨ o = .wraps ∧ m.SkipsBeyond p env n) ∧
      (p.runWords o env random).1 ≠ .error .panic ∧
      ((p.runWords o env random).1 = .error (.error (damaged "JUMP OUT OF RANGE")) ↔
        ∃ k m n, p.ReachesWords o env random k m ∧ (m.state p).Skips n ∧
          UInt64.size ≤ m.pc + 1 + n) := by
  refine ⟨fun o => hw.ofWords?_eq_ok_iff constants, fun o => hw.ofWords?_eq_panic_iff constants,
    fun o p hp env random => ?_⟩
  have hr := runnable_of_ofWords? hw hp
  have hcases {k : Nat} {m : Machine} {n : Nat} (hm : p.ReachesWords o env random k m)
      (hn : (m.state p).Skips n) := (hm.reaches hr).1.skips_cases hw hp hn env
  refine ⟨fun k m n hm hn => hcases hm hn, ?_, fun h => ?_, ?_⟩
  · rw [runWords_eq hr]
    cases (p.run env random).1 <;> nofun
  · have hrun : (p.run env random).1 = .error (damaged "JUMP OUT OF RANGE") := by
      rw [runWords_eq hr] at h
      generalize (p.run env random).1 = r at h ⊢
      cases r with
      | ok r => cases h
      | error e => exact congrArg _ (Fault.error.inj (Except.error.inj h))
    obtain ⟨k, s, n, left, hs, hn, hfail⟩ := exists_skips_of_run hrun
    obtain ⟨m, hm, rfl⟩ := hs.exists_reachesWords hr
    obtain hexact | ⟨-, hbeyond⟩ := hcases hm hn
    · obtain ⟨t, hnext, -⟩ := hexact.lands
      have hfollows := Machine.follows_step hr (hm.reaches hr).1 env
      rw [hnext, hfail] at hfollows
      cases hfollows
    · exact ⟨k, m, n, hm, hn, hbeyond.le_sum⟩
  · rintro ⟨k, m, n, hm, hn, hle⟩
    obtain hexact | ⟨rfl, hbeyond⟩ := hcases hm hn
    · have hsize : p.size < UInt64.size := hr.words.length_lt
      have := hexact.le_size
      omega
    · rw [hm.run_eq, Machine.run_fail hbeyond.fails]

/-- Where the variable is zero the branch skips to the address behind the last word. -/
theorem ofWords?_exact_or_overflows_branch : OfWords [.var 0, .branch (UInt64.size - 2), .pi] ∧
    ofWords? .panics [.var 0, .branch (UInt64.size - 2), .pi] [] = .error .panic ∧
    ∃ p, ofWords? .wraps [.var 0, .branch (UInt64.size - 2), .pi] [] = .ok p ∧
      (p.runWords .wraps { vars := [0] } (.cycle [])).1 =
        .error (.error (damaged "JUMP OUT OF RANGE")) := by
  have hw : OfWords [.var 0, .branch (UInt64.size - 2), .pi] := by
    refine ⟨by decide, fun op hop n hn => ?_⟩
    simp only [List.mem_cons, List.not_mem_nil, or_false] at hop
    rcases hop with rfl | rfl | rfl <;> cases hn
    decide
  obtain ⟨-, hpanic, hrun⟩ := ofWords?_exact_or_overflows hw []
  have hp : ofWords? .wraps [.var 0, .branch (UInt64.size - 2), .pi] [] = .ok _ := rfl
  refine ⟨hw, (hpanic .panics).mpr ⟨rfl, rfl, 1, _, ⟨_, _, rfl, rfl, rfl⟩, by decide, ?_⟩, _, hp,
    ((hrun .wraps _ hp _ _).2.2).mpr ?_⟩
  · rintro a' ha' b' ⟨op, n, hop, hn, -⟩
    obtain rfl : a' = 0 := by omega
    cases hop
    cases hn
  · exact ⟨1, _, _, .step .start rfl, .branch rfl rfl (by decide), by decide⟩

/-- Code that leads beyond its end makes the check panic, or it is accepted and a run
of it fails. -/
theorem overflow_not_refused : OfWords [.jump (UInt64.size - 1)] ∧
    HasTarget [.jump (UInt64.size - 1)] 0 UInt64.size ∧
    ofWords? .panics [.jump (UInt64.size - 1)] [] = .error .panic ∧
    ∃ p, ofWords? .wraps [.jump (UInt64.size - 1)] [] = .ok p ∧ p.size = 1 ∧
      p.runWords .wraps {} (.cycle []) =
        (.error (.error (damaged "JUMP OUT OF RANGE")), .cycle []) := by
  refine ⟨⟨by decide, fun op hop n hn => ?_⟩, ⟨_, _, rfl, rfl, rfl⟩, rfl, _, rfl, rfl,
    Machine.run_fail rfl⟩
  obtain rfl := List.mem_singleton.mp hop
  cases hn
  decide

end FormulaMachine.Program
