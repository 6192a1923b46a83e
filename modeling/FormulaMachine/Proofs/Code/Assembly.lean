import FormulaMachine.Proofs.Execution.Placement
import Mathlib.Data.List.Perm.Subperm

/-!
Fragments by the way they are put together. Whatever is pushed and appended, every branch and every
jump stays with the choice that it was added with, so the fragment may be run anywhere.
-/
namespace FormulaMachine

/-- A way to put a fragment together. Branches and jumps come with choices only, and numbers with
their constants. -/
inductive Assembly
  | empty
  | push (a : Assembly) (op : Opcode) (number : op.isNumber = false) (skip : op.skip? = none)
  | pushNumber (a : Assembly) (x : Float)
  | append (a b : Assembly)
  | pushChoice (a yes no : Assembly)

/-- The addresses of the instructions that a choice adds. -/
structure Choice where
  branch : Nat
  jump : Nat
  endIf : Nat

namespace Opcode

def isBranch : Opcode → Bool
  | .branch _ => true
  | _ => false

def isJump : Opcode → Bool
  | .jump _ => true
  | _ => false

def isEndIf : Opcode → Bool
  | .endIf => true
  | _ => false

end Opcode

/-- The branch leads behind the jump, and the jump to the end of the choice. -/
structure Choice.StandsIn (c : Choice) (code : List Opcode) : Prop where
  branch : ∃ n, code[c.branch]? = some (.branch n) ∧ c.branch + 1 + n = c.jump + 1
  jump : ∃ n, code[c.jump]? = some (.jump n) ∧ c.jump + 1 + n = c.endIf
  endIf : code[c.endIf]? = some .endIf

theorem Choice.StandsIn.lt {c : Choice} {code : List Opcode} (h : c.StandsIn code) :
    c.jump < c.endIf ∧ c.endIf < code.length := by
  obtain ⟨n, -, hn⟩ := h.jump
  exact ⟨by omega, (List.getElem?_eq_some_iff.mp h.endIf).1⟩

/-- The choices stand in the code, and every branch and every jump of it belongs to exactly one of
them. No end belongs to two. -/
structure LaidOut (choices : List Choice) (code : List Opcode) : Prop where
  standsIn : ∀ c ∈ choices, c.StandsIn code
  branches : choices.map Choice.branch = code.findIdxs Opcode.isBranch
  jumps : (choices.map Choice.jump).Perm (code.findIdxs Opcode.isJump)
  ends : (choices.map Choice.endIf).Subperm (code.findIdxs Opcode.isEndIf)

namespace LaidOut

variable {choices : List Choice} {code : List Opcode} {i n : Nat}

theorem exists_of_branch (h : LaidOut choices code) (hi : code[i]? = some (.branch n)) :
    ∃ c ∈ choices, i = c.branch ∧ c.branch + 1 + n = c.jump + 1 := by
  obtain ⟨hlt, hget⟩ := List.getElem?_eq_some_iff.mp hi
  have hmem : i ∈ choices.map Choice.branch := by
    rw [h.branches, List.mem_findIdxs_iff_pos_getElem hlt, hget]
    rfl
  obtain ⟨c, hc, rfl⟩ := List.mem_map.mp hmem
  obtain ⟨k, hk, hsum⟩ := (h.standsIn c hc).branch
  cases hi.symm.trans hk
  exact ⟨c, hc, rfl, hsum⟩

theorem exists_of_jump (h : LaidOut choices code) (hi : code[i]? = some (.jump n)) :
    ∃ c ∈ choices, i = c.jump ∧ c.jump + 1 + n = c.endIf := by
  obtain ⟨hlt, hget⟩ := List.getElem?_eq_some_iff.mp hi
  have hmem : i ∈ choices.map Choice.jump := by
    rw [h.jumps.mem_iff, List.mem_findIdxs_iff_pos_getElem hlt, hget]
    rfl
  obtain ⟨c, hc, rfl⟩ := List.mem_map.mp hmem
  obtain ⟨k, hk, hsum⟩ := (h.standsIn c hc).jump
  cases hi.symm.trans hk
  exact ⟨c, hc, rfl, hsum⟩

/-- All that is skipped is within the code. -/
theorem sum_le (h : LaidOut choices code) {op : Opcode} (hi : code[i]? = some op)
    (hn : op.skip? = some n) : i + 1 + n ≤ code.length := by
  cases op <;> cases hn
  case branch =>
    obtain ⟨c, hc, rfl, hsum⟩ := h.exists_of_branch hi
    obtain ⟨hjump, hend⟩ := (h.standsIn c hc).lt
    omega
  case jump =>
    obtain ⟨c, hc, rfl, hsum⟩ := h.exists_of_jump hi
    obtain ⟨-, hend⟩ := (h.standsIn c hc).lt
    omega

end LaidOut

namespace Assembly

def fragment : Assembly → Fragment
  | empty => .empty
  | push a op _ _ => a.fragment.push op
  | pushNumber a x => a.fragment.pushNumber x
  | append a b => a.fragment ++ b.fragment
  | pushChoice a yes no => a.fragment.pushChoice yes.fragment no.fragment

/-- The choices in the order of their branches. The first instruction has the given address. -/
def choices (first : Nat) : Assembly → List Choice
  | empty => []
  | push a _ _ _ | pushNumber a _ => a.choices first
  | append a b => a.choices first ++ b.choices (first + a.fragment.size)
  | pushChoice a yes no =>
    let branch := first + a.fragment.size
    let jump := branch + 1 + yes.fragment.size
    a.choices first ++ ⟨branch, jump, jump + 1 + no.fragment.size⟩ ::
      (yes.choices (branch + 1) ++ no.choices (jump + 1))

variable {a : Assembly} {first : Nat} {before after : List Opcode}

theorem sound (a : Assembly) : a.fragment.Sound := by
  induction a with
  | empty => exact Fragment.sound_empty
  | push a op hn hs ih => exact ih.push hn hs
  | pushNumber a x ih => exact ih.pushNumber x
  | append a b iha ihb => exact iha.append ihb
  | pushChoice a yes no iha ihy ihn => exact iha.pushChoice ihy ihn

theorem getElem?_of_append {code : List Opcode} {op : Opcode} {i : Nat}
    (front back : List Opcode) (h : code = front ++ op :: back) (hi : front.length = i) :
    code[i]? = some op := by
  subst h hi
  simp

theorem standsIn_of_pushChoice {f yes no : Fragment} {branch : Nat}
    (hf : before.length + f.size = branch) :
    (⟨branch, branch + 1 + yes.size, branch + 1 + yes.size + 1 + no.size⟩ : Choice).StandsIn
      (before ++ (f.pushChoice yes no).code ++ after) := by
  have hcode : before ++ (f.pushChoice yes no).code ++ after = (before ++ f.code) ++
      .branch (yes.size + 1) :: (yes.code ++ .jump no.size :: (no.code ++ .endIf :: after)) := by
    simp [Fragment.pushChoice_code]
  have hbranch : (before ++ f.code).length = branch := by rw [List.length_append]; exact hf
  rw [hcode]
  refine ⟨⟨yes.size + 1, ?_, by simp only; omega⟩, ⟨no.size, ?_, rfl⟩, ?_⟩
  · exact getElem?_of_append (before ++ f.code) _ rfl hbranch
  · refine getElem?_of_append (before ++ f.code ++ .branch (yes.size + 1) :: yes.code)
      (no.code ++ .endIf :: after) (by simp) ?_
    simp only [List.length_append, List.length_cons, Fragment.size] at hbranch ⊢
    omega
  · refine getElem?_of_append (before ++ f.code ++ .branch (yes.size + 1) :: yes.code ++
      .jump no.size :: no.code) after (by simp) ?_
    simp only [List.length_append, List.length_cons, Fragment.size] at hbranch ⊢
    omega

/-- Wherever the fragment is placed. -/
theorem standsIn_of_mem {c : Choice} (hc : c ∈ a.choices first) (hf : before.length = first) :
    c.StandsIn (before ++ a.fragment.code ++ after) := by
  induction a generalizing first before after with
  | empty => cases hc
  | push a op hn hs ih =>
    have h : c.StandsIn (before ++ a.fragment.code ++ op :: after) := ih hc hf
    simpa [fragment, Fragment.push] using h
  | pushNumber a x ih =>
    have h : c.StandsIn (before ++ a.fragment.code ++ .number :: after) := ih hc hf
    simpa [fragment, Fragment.pushNumber] using h
  | append a b iha ihb =>
    rw [choices, List.mem_append] at hc
    rcases hc with hc | hc
    · have h : c.StandsIn (before ++ a.fragment.code ++ (b.fragment.code ++ after)) := iha hc hf
      simpa [fragment] using h
    · have h : c.StandsIn (before ++ a.fragment.code ++ b.fragment.code ++ after) :=
        ihb hc (by simp [hf, Fragment.size])
      simpa [fragment] using h
  | pushChoice a yes no iha ihy ihn =>
    rw [choices, List.mem_append, List.mem_cons, List.mem_append] at hc
    rcases hc with hc | rfl | hc | hc
    · have h : c.StandsIn (before ++ a.fragment.code ++ (.branch (yes.fragment.size + 1) ::
          yes.fragment.code ++ .jump no.fragment.size :: no.fragment.code ++ .endIf :: after)) :=
        iha hc hf
      simpa [fragment, Fragment.pushChoice_code] using h
    · exact standsIn_of_pushChoice (hf ▸ rfl)
    · have h : c.StandsIn ((before ++ a.fragment.code ++ [.branch (yes.fragment.size + 1)]) ++
          yes.fragment.code ++ (.jump no.fragment.size :: no.fragment.code ++ .endIf :: after)) :=
        ihy hc (by simp [← hf, Fragment.size]; omega)
      simpa [fragment, Fragment.pushChoice_code] using h
    · have h : c.StandsIn ((before ++ a.fragment.code ++ .branch (yes.fragment.size + 1) ::
          yes.fragment.code ++ [.jump no.fragment.size]) ++ no.fragment.code ++ .endIf :: after) :=
        ihn hc (by simp [← hf, Fragment.size]; omega)
      simpa [fragment, Fragment.pushChoice_code] using h

theorem findIdxs_pushChoice (q : Opcode → Bool) (f yes no : Fragment) (first : Nat) :
    (f.pushChoice yes no).code.findIdxs q first =
      f.code.findIdxs q first ++
        (if q (.branch (yes.size + 1)) then [first + f.size] else []) ++
        yes.code.findIdxs q (first + f.size + 1) ++
        (if q (.jump no.size) then [first + f.size + 1 + yes.size] else []) ++
        no.code.findIdxs q (first + f.size + 1 + yes.size + 1) ++
        (if q .endIf then [first + f.size + 1 + yes.size + 1 + no.size] else []) := by
  have hcode : (f.pushChoice yes no).code = f.code ++ [.branch (yes.size + 1)] ++ yes.code ++
      [.jump no.size] ++ no.code ++ [.endIf] := by
    simp [Fragment.pushChoice_code]
  simp only [hcode, List.findIdxs_append, List.findIdxs_singleton, List.length_append,
    List.length_singleton, ← Nat.add_assoc, Fragment.size]
  rfl

/-- The branches of the choices are all branches, in their order. -/
theorem map_branch_choices (a : Assembly) (first : Nat) :
    (a.choices first).map Choice.branch = a.fragment.code.findIdxs Opcode.isBranch first := by
  induction a generalizing first with
  | empty => rfl
  | push a op hn hs ih =>
    have hb : op.isBranch = false := by
      cases op <;> first | rfl | cases hs
    simp [choices, fragment, Fragment.push, ih, List.findIdxs_append, hb]
  | pushNumber a x ih =>
    simp [choices, fragment, Fragment.pushNumber, ih, List.findIdxs_append, Opcode.isBranch]
  | append a b iha ihb =>
    simp [choices, fragment, iha, ihb, List.findIdxs_append, Fragment.size]
  | pushChoice a yes no iha ihy ihn =>
    simp [choices, fragment, findIdxs_pushChoice, iha, ihy, ihn, Opcode.isBranch]

/-- The jumps of the choices are all jumps. -/
theorem map_jump_choices (a : Assembly) (first : Nat) :
    ((a.choices first).map Choice.jump).Perm (a.fragment.code.findIdxs Opcode.isJump first) := by
  induction a generalizing first with
  | empty => rfl
  | push a op hn hs ih =>
    have hj : op.isJump = false := by
      cases op <;> first | rfl | cases hs
    simpa [choices, fragment, Fragment.push, List.findIdxs_append, hj] using ih first
  | pushNumber a x ih =>
    simpa [choices, fragment, Fragment.pushNumber, List.findIdxs_append, Opcode.isJump] using
      ih first
  | append a b iha ihb =>
    simpa [choices, fragment, List.findIdxs_append, Fragment.size] using (iha first).append (ihb _)
  | pushChoice a yes no iha ihy ihn =>
    have hy := ihy (first + a.fragment.size + 1)
    have hn := ihn (first + a.fragment.size + 1 + yes.fragment.size + 1)
    -- The jump of the choice stands behind those of its first side.
    have hinner := List.perm_middle.symm.trans
      (hy.append (hn.cons (first + a.fragment.size + 1 + yes.fragment.size)))
    simpa [choices, fragment, findIdxs_pushChoice, Opcode.isJump] using (iha first).append hinner

/-- Ends may have been pushed without a choice, too. -/
theorem map_endIf_choices (a : Assembly) (first : Nat) :
    ((a.choices first).map Choice.endIf).Subperm
      (a.fragment.code.findIdxs Opcode.isEndIf first) := by
  induction a generalizing first with
  | empty => exact .refl _
  | push a op hn hs ih =>
    rw [choices, fragment, Fragment.push, List.findIdxs_append]
    exact (ih first).trans (List.sublist_append_left _ _).subperm
  | pushNumber a x ih =>
    rw [choices, fragment, Fragment.pushNumber, List.findIdxs_append]
    exact (ih first).trans (List.sublist_append_left _ _).subperm
  | append a b iha ihb =>
    simpa [choices, fragment, List.findIdxs_append, Fragment.size] using (iha first).append (ihb _)
  | pushChoice a yes no iha ihy ihn =>
    have hy := ihy (first + a.fragment.size + 1)
    have hn := ihn (first + a.fragment.size + 1 + yes.fragment.size + 1)
    -- The end of the choice stands behind all others of its sides.
    have hinner := (List.perm_append_singleton
      (first + a.fragment.size + 1 + yes.fragment.size + 1 + no.fragment.size) _).symm.subperm.trans
      ((hy.append hn).append (.refl _))
    simpa [choices, fragment, findIdxs_pushChoice, Opcode.isEndIf] using (iha first).append hinner

theorem laidOut (a : Assembly) : LaidOut (a.choices 0) a.fragment.code where
  standsIn c hc := by
    have h : c.StandsIn ([] ++ a.fragment.code ++ []) := standsIn_of_mem hc rfl
    rwa [List.append_nil] at h
  branches := a.map_branch_choices 0
  jumps := a.map_jump_choices 0
  ends := a.map_endIf_choices 0

theorem closed (a : Assembly) : a.fragment.Closed where
  numbers := a.sound.numbers
  targets _ _ _ := a.laidOut.sum_le

/-- Whatever is put together has as many numbers as constants, its choices are all that leads
anywhere, and it makes a program. In the middle of any other code, from any operands, it is run
through as it runs alone. -/
theorem runs_anywhere (a : Assembly) : a.fragment.Closed ∧
    LaidOut (a.choices 0) a.fragment.code ∧ a.fragment.toProgram? = .ok a.fragment.program ∧
    ∀ (before after : Fragment) (env : Environment) (s : Program.State),
      before.code.countP Opcode.isNumber = before.constants.length →
      (before ++ a.fragment ++ after).program.Aligned s →
      (before ++ a.fragment ++ after).program.address s = before.size →
      (before ++ a.fragment ++ after).program.RunsThrough a.fragment after env s :=
  ⟨a.closed, a.laidOut, a.sound.toProgram?, fun _ _ env _ hn hs ha =>
    Program.runsThrough_of_closed a.closed hn hs ha env⟩

/-- A choice with choices for its condition and on one side, above an operand that waits. -/
theorem runs_anywhere_nested : ∃ a p s,
    a = pushChoice (pushChoice (push empty (.var 0) rfl rfl) (pushNumber empty 2)
      (pushNumber empty 3)) (pushChoice (push empty (.var 0) rfl rfl) (pushNumber empty 4)
      (pushNumber empty 5)) (push empty .pi rfl rfl) ∧
    p = (⟨[.number], [9]⟩ ++ a.fragment ++ ⟨[.binary .add], []⟩ : Fragment).program ∧
    a.choices 0 = [⟨1, 3, 5⟩, ⟨6, 13, 15⟩, ⟨8, 10, 12⟩] ∧
    p.Reaches { vars := [1] } (.cycle []) 1 s ∧
    p.RunsThrough a.fragment ⟨[.binary .add], []⟩ { vars := [1] } s := by
  refine ⟨_, _, _, rfl, rfl, rfl, .step .start rfl, ?_⟩
  exact (runs_anywhere _).2.2.2 ⟨[.number], [9]⟩ ⟨[.binary .add], []⟩ _ _ rfl
    ⟨rfl, rfl, rfl⟩ rfl

end Assembly
end FormulaMachine
