import FormulaMachine.Proofs.Grammar

/-! Tables of names only grow, and a binding stands for its name in all that they grow to. -/
namespace FormulaMachine

namespace Names

variable {a b c names names' : Names} {name : String} {x : Binding} {i : Nat}

/-- The name that has been bound. -/
def bound? (names : Names) : Binding → Option String
  | .var index => names.vars[index]?
  | .ref index => names.refs[index]?

/-- What compiling may make of a table. No name that has been defined becomes a variable. -/
structure Grows (a b : Names) : Prop where
  vars : a.vars <+: b.vars
  refs : a.refs <+: b.refs
  unshadowed : ∀ n ∈ b.vars, n ∈ a.vars ∨ n ∉ a.refs

theorem Grows.refl (a : Names) : a.Grows a where
  vars := List.prefix_rfl
  refs := List.prefix_rfl
  unshadowed _ h := .inl h

theorem Grows.trans (h : a.Grows b) (h' : b.Grows c) : a.Grows c where
  vars := h.vars.trans h'.vars
  refs := h.refs.trans h'.refs
  unshadowed n hn := by
    rcases h'.unshadowed n hn with hb | hb
    · exact h.unshadowed n hb
    · exact .inr fun ha => hb (h.refs.subset ha)

theorem grows_declare (names : Names) (name : String) : names.Grows (names.declare name) where
  vars := List.prefix_rfl
  refs := List.prefix_append _ _
  unshadowed _ h := .inl h

theorem getElem?_of_prefix {l m : List String} (h : l <+: m) (hi : l[i]? = some name) :
    m[i]? = some name := by
  obtain ⟨t, rfl⟩ := h
  rw [List.getElem?_append_left (List.getElem?_eq_some_iff.mp hi).1, hi]

theorem Grows.bound? (h : a.Grows b) (hx : a.bound? x = some name) : b.bound? x = some name := by
  cases x with
  | var i => exact getElem?_of_prefix h.vars hx
  | ref i => exact getElem?_of_prefix h.refs hx

theorem getElem?_of_idxOf? {l : List String} (h : l.idxOf? name = some i) : l[i]? = some name := by
  obtain ⟨hi, hn, -⟩ := List.findIdx?_eq_some_iff_getElem.mp h
  rw [List.getElem?_eq_getElem hi, eq_of_beq hn]

theorem getElem?_of_latest? {l : List String} (h : latest? l name = some i) :
    l[i]? = some name := by
  obtain ⟨j, hj, rfl⟩ := Option.map_eq_some_iff.mp h
  have hj := getElem?_of_idxOf? hj
  have hl := (List.getElem?_eq_some_iff.mp hj).1
  rw [List.length_reverse] at hl
  rwa [List.getElem?_reverse hl] at hj

/-- The ways in which a name can be bound. -/
theorem resolve_cases (h : names.resolve name = (some x, names')) :
    (∃ i, names.vars.idxOf? name = some i ∧ x = .var i ∧ names' = names) ∨
    (∃ i, name ∉ names.vars ∧ latest? names.refs name = some i ∧ x = .ref i ∧ names' = names) ∨
    (name ∉ names.vars ∧ name ∉ names.refs ∧ names.discover = true ∧ x = .var names.vars.length ∧
      names' = { names with vars := names.vars ++ [name] }) := by
  simp only [resolve] at h
  split at h
  · next i hi =>
    cases h
    exact .inl ⟨i, hi, rfl, rfl⟩
  · next hv =>
    have hv := List.idxOf?_eq_none_iff.mp hv
    split at h
    · next i hi =>
      cases h
      exact .inr (.inl ⟨i, hv, hi, rfl, rfl⟩)
    · next hr =>
      have hr := List.idxOf?_eq_none_iff.mp (Option.map_eq_none_iff.mp hr)
      split at h
      · next hd =>
        cases h
        exact .inr (.inr ⟨hv, fun hm => hr (List.mem_reverse.mpr hm), hd, rfl, rfl⟩)
      · cases h

theorem idxOf?_of_prefix {l m : List String} (h : l <+: m) (hi : l.idxOf? name = some i) :
    m.idxOf? name = some i := by
  obtain ⟨t, rfl⟩ := h
  rw [List.idxOf?, List.findIdx?_append, ← List.idxOf?, hi, Option.some_or]

theorem idxOf?_append_singleton {l : List String} (h : name ∉ l) :
    (l ++ [name]).idxOf? name = some l.length := by
  rw [List.idxOf?, List.findIdx?_append, ← List.idxOf?, List.idxOf?_eq_none_iff.mpr h]
  simp

/-- The place that a name is bound to is the first or the last that has the name. -/
theorem place_of_resolve (h : names.resolve name = (some x, names')) :
    (∃ i, names'.vars.idxOf? name = some i ∧ x = .var i) ∨
      ∃ i, name ∉ names'.vars ∧ latest? names.refs name = some i ∧ x = .ref i := by
  rcases resolve_cases h with ⟨i, hi, rfl, rfl⟩ | ⟨i, hv, hi, rfl, rfl⟩ | ⟨hv, -, -, rfl, rfl⟩
  · exact .inl ⟨i, hi, rfl⟩
  · exact .inr ⟨i, hv, hi, rfl⟩
  · exact .inl ⟨_, idxOf?_append_singleton hv, rfl⟩

theorem grows_of_resolve (h : names.resolve name = (some x, names')) : names.Grows names' := by
  rcases resolve_cases h with ⟨i, -, -, rfl⟩ | ⟨i, -, -, -, rfl⟩ | ⟨hv, hr, -, -, rfl⟩
  · exact .refl _
  · exact .refl _
  · refine ⟨List.prefix_append _ _, List.prefix_rfl, fun n hn => ?_⟩
    rcases List.mem_append.mp hn with hn | hn
    · exact .inl hn
    · rw [List.mem_singleton.mp hn]
      exact .inr hr

theorem refs_of_resolve (h : names.resolve name = (some x, names')) : names'.refs = names.refs := by
  rcases resolve_cases h with ⟨i, -, -, rfl⟩ | ⟨i, -, -, -, rfl⟩ | ⟨-, -, -, -, rfl⟩ <;> rfl

theorem bound?_of_resolve (h : names.resolve name = (some x, names')) :
    names'.bound? x = some name := by
  rcases place_of_resolve h with ⟨i, hi, rfl⟩ | ⟨i, -, hi, rfl⟩
  · exact getElem?_of_idxOf? hi
  · rw [← refs_of_resolve h] at hi
    exact getElem?_of_latest? hi

/-- With discovery every name is known. -/
theorem exists_resolve (h : names.discover = true) (name : String) :
    ∃ x names', names.resolve name = (some x, names') ∧ names'.discover = true := by
  simp only [resolve]
  split
  · exact ⟨_, _, rfl, h⟩
  · split
    · exact ⟨_, _, rfl, h⟩
    · rw [if_pos h]
      exact ⟨_, _, rfl, h⟩

end Names

namespace Resolves

variable {names names' : Names} {x y : Phrase} {e : Expr}

theorem grows (h : Resolves names x e names') : names.Grows names' := by
  induction h with
  | literal | pi | euler => exact .refl _
  | name h => exact Names.grows_of_resolve h
  | call _ ih | negation _ ih => exact ih
  | call₂ _ _ ihx ihy | binary _ _ ihx ihy => exact ihx.trans ihy
  | choice _ _ _ ihx ihy ihz => exact (ihx.trans ihy).trans ihz

theorem refs_eq (h : Resolves names x e names') : names'.refs = names.refs := by
  induction h with
  | literal | pi | euler => rfl
  | name h => exact Names.refs_of_resolve h
  | call _ ih | negation _ ih => exact ih
  | call₂ _ _ ihx ihy | binary _ _ ihx ihy => exact ihy.trans ihx
  | choice _ _ _ ihx ihy ihz => exact ihz.trans (ihy.trans ihx)

end Resolves

/-- With discovery every phrase resolves. -/
theorem Phrase.exists_resolves (x : Phrase) (names : Names) (h : names.discover = true) :
    ∃ e names', Resolves names x e names' ∧ names'.discover = true := by
  induction x generalizing names with
  | literal | pi | euler => exact ⟨_, _, by constructor, h⟩
  | name c n =>
    obtain ⟨b, names', hr, hd⟩ := names.exists_resolve h n
    exact ⟨_, _, .name hr, hd⟩
  | call c f x ih =>
    obtain ⟨a, names', hr, hd⟩ := ih names h
    exact ⟨_, _, .call hr, hd⟩
  | negation c x ih =>
    obtain ⟨a, names', hr, hd⟩ := ih names h
    exact ⟨_, _, .negation hr, hd⟩
  | call₂ c f x y ihx ihy =>
    obtain ⟨a, names₁, hx, hd⟩ := ihx names h
    obtain ⟨b, names', hy, hd⟩ := ihy _ hd
    exact ⟨_, _, .call₂ hx hy, hd⟩
  | binary c op x y ihx ihy =>
    obtain ⟨a, names₁, hx, hd⟩ := ihx names h
    obtain ⟨b, names', hy, hd⟩ := ihy _ hd
    exact ⟨_, _, .binary hx hy, hd⟩
  | choice c x y z ihx ihy ihz =>
    obtain ⟨a, names₁, hx, hd⟩ := ihx names h
    obtain ⟨b, names₂, hy, hd⟩ := ihy _ hd
    obtain ⟨d, names', hz, hd⟩ := ihz _ hd
    exact ⟨_, _, .choice hx hy hz, hd⟩

/-- The phrase that an expression came from, by the names that its operands are bound to. -/
def Expr.phrase (names : Names) : Expr → Phrase
  | operand c (.literal value) => .literal c value
  | operand c .pi => .pi c
  | operand c .euler => .euler c
  | operand c (.var index) => .name c ((names.bound? (.var index)).getD "")
  | operand c (.ref index) => .name c ((names.bound? (.ref index)).getD "")
  | call c f x => .call c f (x.phrase names)
  | call₂ c f x y => .call₂ c f (x.phrase names) (y.phrase names)
  | choice c x y z => .choice c (x.phrase names) (y.phrase names) (z.phrase names)
  | negation c x => .negation c (x.phrase names)
  | binary c op x y => .binary c op (x.phrase names) (y.phrase names)

theorem Resolves.phrase_eq {names names' final : Names} {x : Phrase} {e : Expr}
    (h : Resolves names x e names') (hf : names'.Grows final) : e.phrase final = x := by
  induction h with
  | literal | pi | euler => rfl
  | @name _ _ c n b h =>
    have hb := hf.bound? (Names.bound?_of_resolve h)
    cases b <;> simp [Binding.operand, Expr.phrase, hb]
  | call _ ih | negation _ ih => rw [Expr.phrase, ih hf]
  | call₂ _ hy ihx ihy | binary _ hy ihx ihy =>
    rw [Expr.phrase, ihx (hy.grows.trans hf), ihy hf]
  | choice _ hy hz ihx ihy ihz =>
    rw [Expr.phrase, ihx ((hy.grows.trans hz.grows).trans hf), ihy (hz.grows.trans hf), ihz hf]

end FormulaMachine
