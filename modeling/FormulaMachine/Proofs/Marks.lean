import FormulaMachine.Proofs.Names
import FormulaMachine.Proofs.Parsing.Completeness

/-!
Which token introduces which part of an expression. Every token of an expression introduces one part
of it or none.
-/
namespace FormulaMachine

namespace Expr

def isBinary : Expr → Bool
  | binary _ _ _ _ => true
  | _ => false

def isNegation : Expr → Bool
  | negation _ _ => true
  | _ => false

/-- The tokens that may introduce an expression. Names have the places that they have in the given
table. -/
def IntroducedBy (names : Names) (t : Token) : Expr → Prop
  | operand _ (.literal value) =>
    ∃ text, t = .literal text ∧ Decimal.read? text.toList = some value
  | operand _ .pi => t = .identifier "pi"
  | operand _ .euler => t = .identifier "e"
  | operand _ (.var index) => ∃ name, t = .identifier name ∧ names.vars[index]? = some name
  | operand _ (.ref index) => ∃ name, t = .identifier name ∧ names.refs[index]? = some name
  | call _ f _ => t = .identifier f.name
  | call₂ _ f _ _ => t = .identifier f.name
  | choice _ _ _ _ => t = .identifier "if"
  | negation _ _ => t = .operator .subtract
  | binary _ op _ _ => t = .operator op

end Expr

/-- A token, and the part of an expression that it introduces. -/
structure Mark where
  placed : Placed
  part? : Option Expr := none

namespace Mark

/-- A plus or minus that is not the operator of two operands. -/
def isSign (m : Mark) : Bool := m.placed.isSign && !m.part?.any Expr.isBinary

def isNegation (m : Mark) : Bool := m.part?.any Expr.isNegation

def Fits (names : Names) (m : Mark) : Prop :=
  ∀ e, m.part? = some e → e.column = m.placed.column ∧ e.IntroducedBy names m.placed.token

/-- No negation has a minus before its own in a run of signs. `seen` tells whether there is one in a
run that goes on here. -/
def Leading : (seen : Bool) → List Mark → Prop
  | _, [] => True
  | seen, m :: ms =>
    (m.isNegation → seen = false) ∧ Leading (m.isSign && (seen || m.placed.isMinus)) ms

variable {names : Names} {m : Mark} {ms ns : List Mark} {seen : Bool} {run : List Placed}

theorem Fits.isSign_of_isNegation (h : m.Fits names) (hn : m.isNegation) :
    m.placed.isSign ∧ m.isSign := by
  obtain ⟨p, part⟩ := m
  cases part with
  | none => cases hn
  | some e =>
    obtain ⟨-, hi⟩ := h e rfl
    cases e with
    | operand | call | call₂ | choice | binary => cases hn
    | negation c x =>
      have ht : p.token = .operator .subtract := hi
      simp [isSign, Placed.isSign, Placed.operator?, ht, Operator.isAdditive, Expr.isBinary]

theorem map_placed (run : List Placed) :
    (run.map fun p => ({ placed := p } : Mark)).map (·.placed) = run := by
  simp [Function.comp_def]

theorem filterMap_part? (run : List Placed) :
    (run.map fun p => ({ placed := p } : Mark)).filterMap (·.part?) = [] := by
  rw [List.filterMap_eq_nil_iff]
  intro m hm
  obtain ⟨p, -, rfl⟩ := List.mem_map.mp hm
  rfl

theorem fits_of_mem_map (h : m ∈ run.map fun p => ({ placed := p } : Mark)) : m.Fits names := by
  obtain ⟨p, -, rfl⟩ := List.mem_map.mp h
  exact nofun

theorem leading_join (hm : Leading seen ms) (hn : Leading false ns) (hs : m.isSign = false)
    (hneg : m.isNegation = false) : Leading seen (ms ++ m :: ns) := by
  induction ms generalizing seen with
  | nil =>
    refine ⟨fun h => ?_, ?_⟩
    · rw [hneg] at h
      cases h
    · rw [hs, Bool.false_and]
      exact hn
  | cons k ms ih => exact ⟨hm.1, ih hm.2⟩

/-- Nothing goes on where there is no sign. -/
theorem Leading.restart (h : Leading false ns)
    (hn : ∀ n ∈ ns.head?, n.isSign = false ∧ n.isNegation = false) (seen : Bool) :
    Leading seen ns := by
  cases ns with
  | nil => trivial
  | cons n ns =>
    obtain ⟨hs, hneg⟩ := hn n rfl
    refine ⟨fun h => ?_, ?_⟩
    · rw [hneg] at h
      cases h
    · have h := h.2
      rw [hs, Bool.false_and] at h ⊢
      exact h

theorem leading_signs (h : ∀ seen, Leading seen ns) (run : List Placed) (seen : Bool) :
    Leading seen (run.map ({ placed := · }) ++ ns) := by
  induction run generalizing seen with
  | nil => exact h seen
  | cons p run ih =>
    refine ⟨fun hn => ?_, ih _⟩
    cases hn

theorem leading_plus (h : Leading false ns) (hr : ∀ p ∈ run, p.isMinus = false) :
    Leading false (run.map ({ placed := · }) ++ ns) := by
  induction run with
  | nil => exact h
  | cons p run ih =>
    have hp := hr p List.mem_cons_self
    have ih := ih fun q hq => hr q (List.mem_cons_of_mem _ hq)
    exact ⟨fun _ => rfl, by simpa [hp] using ih⟩

/-- Once a minus has been seen, a negation can only come behind the end of the run. -/
theorem Leading.exists_break {after : List Mark} (h : Leading true (ms ++ m :: after))
    (hm : m.isNegation) : ∃ n ∈ ms, n.isSign = false := by
  induction ms with
  | nil => cases h.1 hm
  | cons k ms ih =>
    cases hk : k.isSign with
    | false => exact ⟨k, List.mem_cons_self, hk⟩
    | true =>
      have h := h.2
      rw [hk, Bool.true_or, Bool.true_and] at h
      obtain ⟨n, hn, hs⟩ := ih h
      exact ⟨n, List.mem_cons_of_mem _ hn, hs⟩

/-- Between a negation and any minus before it a run of signs comes to its end. -/
theorem Leading.exists_between {front back after : List Mark} {minus : Mark}
    (h : Leading seen (front ++ minus :: back ++ m :: after)) (hm : m.isNegation)
    (hminus : minus.placed.isMinus) : ∃ n ∈ minus :: back, n.isSign = false := by
  induction front generalizing seen with
  | nil =>
    cases hs : minus.isSign with
    | false => exact ⟨minus, List.mem_cons_self, hs⟩
    | true =>
      have h : Leading _ (back ++ m :: after) := h.2
      rw [hs, hminus, Bool.or_true, Bool.true_and] at h
      obtain ⟨n, hn, hs⟩ := h.exists_break hm
      exact ⟨n, List.mem_cons_of_mem _ hn, hs⟩
  | cons k front ih => exact ih h.2

end Mark

/-- Marks on the tokens of a text, which introduce just the given parts. -/
structure Marking (names : Names) (xs : List Placed) (es : List Expr) (ms : List Mark) : Prop where
  tokens : ms.map (·.placed) = xs
  parts : (ms.filterMap (·.part?)).Perm es
  fits : ∀ m ∈ ms, m.Fits names
  leading : Mark.Leading false ms

/-- Tokens that can be marked so. -/
def Marked (names : Names) (xs : List Placed) (es : List Expr) : Prop :=
  ∃ ms, Marking names xs es ms

section
variable {names : Names} {xs ys : List Placed} {ds es : List Expr} {p : Placed} {e : Expr}
  {m : Mark} {ms ns : List Mark}

theorem marked_nil (names : Names) : Marked names [] [] :=
  ⟨[], rfl, .nil, nofun, trivial⟩

theorem Marking.join (hx : Marking names xs ds ms) (hy : Marking names ys es ns)
    (hm : m.Fits names) (hs : m.isSign = false) :
    Marking names (xs ++ m.placed :: ys) (ds ++ es ++ m.part?.toList) (ms ++ m :: ns) where
  tokens := by rw [List.map_append, List.map_cons, hx.tokens, hy.tokens]
  parts := by
    have hp := hx.parts.append hy.parts
    cases hpart : m.part? with
    | none => simpa [List.filterMap_append, List.filterMap_cons, hpart] using hp
    | some e =>
      have hmid : (ms.filterMap (·.part?) ++ e :: ns.filterMap (·.part?)).Perm (ds ++ es ++ [e]) :=
        List.perm_middle.trans ((hp.cons e).trans (List.perm_append_singleton e _).symm)
      simpa [List.filterMap_append, List.filterMap_cons, hpart] using hmid
  fits n hn := by
    rcases List.mem_append.mp hn with hn | hn
    · exact hx.fits n hn
    · rcases List.mem_cons.mp hn with rfl | hn
      · exact hm
      · exact hy.fits n hn
  leading := by
    refine Mark.leading_join hx.leading hy.leading hs ?_
    cases hn : m.isNegation with
    | false => rfl
    | true =>
      rw [(hm.isSign_of_isNegation hn).2] at hs
      cases hs

/-- A token between two texts may introduce nothing. -/
theorem Marked.separated (hx : Marked names xs ds) (hy : Marked names ys es)
    (hp : p.isSign = false) : Marked names (xs ++ p :: ys) (ds ++ es) := by
  obtain ⟨ms, hms⟩ := hx
  obtain ⟨ns, hns⟩ := hy
  have hj := hms.join (m := { placed := p }) hns nofun (by simp [Mark.isSign, hp])
  rw [Option.toList_none, List.append_nil] at hj
  exact ⟨_, hj⟩

/-- A token between two texts may introduce what they are parts of. -/
theorem Marked.introduced (hx : Marked names xs ds) (hy : Marked names ys es)
    (hc : e.column = p.column) (hi : e.IntroducedBy names p.token) (hn : e.isNegation = false) :
    Marked names (xs ++ p :: ys) (ds ++ es ++ [e]) := by
  obtain ⟨ms, hms⟩ := hx
  obtain ⟨ns, hns⟩ := hy
  have hf : Mark.Fits names { placed := p, part? := some e } := by
    intro d hd
    cases hd
    exact ⟨hc, hi⟩
  have hs : Mark.isSign { placed := p, part? := some e } = false := by
    cases e with
    | binary => simp [Mark.isSign, Expr.isBinary]
    | negation => cases hn
    | operand c o =>
      cases o with
      | literal | var | ref =>
        obtain ⟨_, ht, -⟩ := hi
        simp [Mark.isSign, Placed.isSign, Placed.operator?, ht]
      | pi | euler =>
        have ht : p.token = _ := hi
        simp [Mark.isSign, Placed.isSign, Placed.operator?, ht]
    | call | call₂ | choice =>
      have ht : p.token = _ := hi
      simp [Mark.isSign, Placed.isSign, Placed.operator?, ht]
  exact ⟨_, hms.join hns hf hs⟩

theorem Marked.enclosed (hx : Marked names xs es) (l r : Column) :
    Marked names (⟨.leftParen, l⟩ :: (xs ++ [⟨.rightParen, r⟩])) es := by
  have hnil := marked_nil names
  have hr := hx.separated hnil (p := ⟨.rightParen, r⟩) rfl
  have hl := hnil.separated hr (p := ⟨.leftParen, l⟩) rfl
  rwa [List.append_nil] at hl

/-- Signs go on in front of nothing that begins without a sign. -/
theorem Marking.restart (hx : Marking names (p :: xs) es ms) (hp : p.isSign = false)
    (seen : Bool) : Mark.Leading seen ms := by
  refine hx.leading.restart (fun n hn => ?_) seen
  have hplaced : n.placed = p := by
    have ht := congrArg List.head? hx.tokens
    rw [List.head?_map, hn] at ht
    exact Option.some.inj ht
  refine ⟨by simp [Mark.isSign, hplaced, hp], ?_⟩
  cases hneg : n.isNegation with
  | false => rfl
  | true =>
    have hs := ((hx.fits n (List.mem_of_mem_head? hn)).isSign_of_isNegation hneg).1
    rw [hplaced, hp] at hs
    cases hs

/-- Signs that introduce nothing may come first. -/
theorem Marking.preceded (hx : Marking names xs es ms) (run : List Placed)
    (hl : Mark.Leading false (run.map ({ placed := · }) ++ ms)) :
    Marking names (run ++ xs) es (run.map ({ placed := · }) ++ ms) where
  tokens := by rw [List.map_append, Mark.map_placed, hx.tokens]
  parts := by
    rw [List.filterMap_append, Mark.filterMap_part?, List.nil_append]
    exact hx.parts
  fits m hm := by
    rcases List.mem_append.mp hm with hm | hm
    · exact Mark.fits_of_mem_map hm
    · exact hx.fits m hm
  leading := hl

theorem Marked.signed (hx : Marked names (p :: xs) es) (hp : p.isSign = false)
    (run : List Placed) : Marked names (run ++ p :: xs) es := by
  obtain ⟨ms, hms⟩ := hx
  exact ⟨_, hms.preceded run (Mark.leading_signs (hms.restart hp) run false)⟩

/-- The first minus of a run of signs introduces the negation of what follows the run. -/
theorem Marked.negated {run : List Placed} {minus : Placed} {x : Expr}
    (hx : Marked names (p :: xs) es) (hp : p.isSign = false)
    (hr : run.find? Placed.isMinus = some minus) :
    Marked names (run ++ p :: xs) (es ++ [.negation minus.column x]) := by
  obtain ⟨ms, hms⟩ := hx
  obtain ⟨hminus, plus, more, rfl, hplus⟩ := List.find?_eq_some_iff_append.mp hr
  have hfit : Mark.Fits names { placed := minus, part? := some (.negation minus.column x) } := by
    intro e he
    cases he
    refine ⟨rfl, ?_⟩
    obtain ⟨t, c⟩ := minus
    cases t <;> simp_all [Placed.isMinus, Placed.operator?, Expr.IntroducedBy]
  have hseen := Mark.leading_signs (hms.restart hp) more
  have hmore := hms.preceded more (hseen false)
  have hneg : Marking names (minus :: (more ++ p :: xs)) (es ++ [.negation minus.column x])
      ({ placed := minus, part? := some (.negation minus.column x) } ::
        (more.map ({ placed := · }) ++ ms)) := by
    refine ⟨?_, ?_, fun m hm => ?_, fun _ => rfl, hseen _⟩
    · rw [List.map_cons, hmore.tokens]
    · exact (hmore.parts.cons _).trans (List.perm_append_singleton _ _).symm
    · rcases List.mem_cons.mp hm with rfl | hm
      · exact hfit
      · exact hmore.fits m hm
  have hall := hneg.preceded plus (Mark.leading_plus hneg.leading (by simpa using hplus))
  rw [List.append_assoc, List.cons_append]
  exact ⟨_, hall⟩

end

/-- The tokens that derive an expression introduce its parts. -/
theorem Derives.marked {room : Nat} {k : Rank} {xs : List Placed} {x : Phrase} {e : Expr}
    {names names' final : Names} (h : Derives room k xs x) (hr : Resolves names x e names')
    (hf : names'.Grows final) : Marked final xs e.postorder := by
  have hnil := marked_nil final
  induction h generalizing names names' e with
  | lone _ _ ih => exact ih hr hf
  | join _ _ _ _ ihx ihy | compare _ _ _ ihx ihy | exponent _ _ ihx ihy =>
    cases hr with
    | binary hx hy => exact (ihx hx (hy.grows.trans hf)).introduced (ihy hy hf) rfl rfl rfl
  | signed _ _ hx ih =>
    obtain ⟨p, ps, rfl, hp⟩ := Parser.power_cons hx
    exact (ih hr hf).signed hp _
  | negated _ _ hminus hx ih =>
    obtain ⟨p, ps, rfl, hp⟩ := Parser.power_cons hx
    cases hr with
    | negation hr => exact (ih hr hf).negated hp hminus
  | literal hread =>
    cases hr
    exact hnil.introduced hnil rfl ⟨_, rfl, hread⟩ rfl
  | pi | euler =>
    cases hr
    exact hnil.introduced hnil rfl rfl rfl
  | @name _ name c _ =>
    cases hr with
    | @name _ _ _ _ b hb =>
      have hbound := hf.bound? (Names.bound?_of_resolve hb)
      refine hnil.introduced hnil rfl ?_ (by cases b <;> rfl)
      cases b with
      | var i => exact ⟨name, rfl, hbound⟩
      | ref i => exact ⟨name, rfl, hbound⟩
  | @parenthesized _ l r _ _ _ ih => exact (ih hr hf).enclosed l r
  | @call _ _ c l r _ _ _ ih =>
    cases hr with
    | call hr => exact hnil.introduced (p := ⟨_, c⟩) ((ih hr hf).enclosed l r) rfl rfl rfl
  | @call₂ _ f c l m r _ _ _ _ _ _ ihx ihy =>
    cases hr with
    | @call₂ _ _ _ _ _ _ _ a b hx hy =>
      have hxy := (ihx hx (hy.grows.trans hf)).separated (ihy hy hf) (p := ⟨.comma, m⟩) rfl
      have hall := hnil.introduced (p := ⟨.identifier f.name, c⟩) (e := .call₂ c f a b)
        (hxy.enclosed l r) rfl rfl rfl
      simpa [Expr.postorder] using hall
  | @choice _ c l m n r _ _ _ _ _ _ _ _ _ ihx ihy ihz =>
    cases hr with
    | @choice _ _ _ _ _ _ _ _ a b d hx hy hz =>
      have hxy := (ihx hx ((hy.grows.trans hz.grows).trans hf)).separated
        (ihy hy (hz.grows.trans hf)) (p := ⟨.comma, m⟩) rfl
      have hxyz := hxy.separated (ihz hz hf) (p := ⟨.comma, n⟩) rfl
      have hall := hnil.introduced (p := ⟨.identifier "if", c⟩) (e := .choice c a b d)
        (hxyz.enclosed l r) rfl rfl rfl
      simpa [Expr.postorder] using hall

end FormulaMachine
