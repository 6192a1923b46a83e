import FormulaMachine.Proofs.Parsing

/-! What is derived from tokens does not depend on where they stand. -/
namespace FormulaMachine

/-- The same tokens, wherever they stand. -/
def Placed.Alike (ys xs : List Placed) : Prop := ys.map (·.token) = xs.map (·.token)

namespace Phrase

/-- A phrase without its columns. -/
def bare : Phrase → Phrase
  | literal _ value => literal default value
  | pi _ => pi default
  | euler _ => euler default
  | name _ n => name default n
  | call _ f x => call default f x.bare
  | call₂ _ f x y => call₂ default f x.bare y.bare
  | choice _ x y z => choice default x.bare y.bare z.bare
  | negation _ x => negation default x.bare
  | binary _ op x y => binary default op x.bare y.bare

end Phrase

namespace Expr

/-- An expression without its columns. -/
def bare : Expr → Expr
  | operand _ o => operand default o
  | call _ f x => call default f x.bare
  | call₂ _ f x y => call₂ default f x.bare y.bare
  | choice _ x y z => choice default x.bare y.bare z.bare
  | negation _ x => negation default x.bare
  | binary _ op x y => binary default op x.bare y.bare

end Expr

/-- A result without its columns: what it shows to `view`, or what went wrong. -/
def Except.bare {α β : Type} (view : α → β) : Except Error α → Except (ErrorKind × String) β
  | .ok a => .ok (view a)
  | .error e => .error (e.kind, e.detail)

theorem Except.bare_bind {α β γ δ : Type} {view : α → β} {view' : γ → δ}
    {m m' : Except Error α} {f f' : α → Except Error γ} (hm : bare view m' = bare view m)
    (hf : ∀ a a', view a' = view a → bare view' (f' a') = bare view' (f a)) :
    bare view' (m' >>= f') = bare view' (m >>= f) := by
  obtain e | a := m <;> obtain e' | a' := m'
  · exact congrArg Except.error (Except.error.inj hm)
  · cases hm
  · cases hm
  · exact hf a a' (Except.ok.inj hm)

namespace Placed

variable {xs xs' ys run run' : List Placed} {t : Token} {c : Column}

theorem Alike.append (h : Alike ys (xs ++ xs')) :
    ∃ us vs, ys = us ++ vs ∧ Alike us xs ∧ Alike vs xs' := by
  rw [Alike, List.map_append] at h
  exact List.map_eq_append_iff.mp h

theorem Alike.cons (h : Alike ys (⟨t, c⟩ :: xs)) : ∃ c' us, ys = ⟨t, c'⟩ :: us ∧ Alike us xs := by
  obtain ⟨p, us, rfl, ht, hu⟩ := List.map_eq_cons_iff.mp h
  obtain rfl : p.token = t := ht
  exact ⟨p.column, us, rfl, hu⟩

theorem Alike.cons₂ {t' : Token} {c' : Column} (h : Alike ys (⟨t, c⟩ :: ⟨t', c'⟩ :: xs)) :
    ∃ d d' us, ys = ⟨t, d⟩ :: ⟨t', d'⟩ :: us ∧ Alike us xs := by
  obtain ⟨d, vs, rfl, hv⟩ := h.cons
  obtain ⟨d', us, rfl, hu⟩ := hv.cons
  exact ⟨d, d', us, rfl, hu⟩

theorem Alike.singleton (h : Alike ys [⟨t, c⟩]) : ∃ d, ys = [⟨t, d⟩] := by
  obtain ⟨d, us, rfl, hu⟩ := h.cons
  obtain rfl := List.map_eq_nil_iff.mp hu
  exact ⟨d, rfl⟩

theorem Alike.isSign (h : Alike run' run) (hr : ∀ p ∈ run, p.isSign) : ∀ p ∈ run', p.isSign := by
  intro p hp
  have hm : p.token ∈ run.map (·.token) := h ▸ List.mem_map_of_mem hp
  obtain ⟨q, hq, ht⟩ := List.mem_map.mp hm
  have hs := hr q hq
  simp only [Placed.isSign, Placed.operator?] at hs ⊢
  rwa [← ht]

theorem Alike.countP (h : Alike run' run) :
    run'.countP Placed.isMinus = run.countP Placed.isMinus := by
  have hc := congrArg (List.countP fun t => isMinus ⟨t, default⟩) h
  rw [List.countP_map, List.countP_map] at hc
  exact hc

end Placed

variable {room : Nat} {k : Rank} {xs ys : List Placed} {x y : Phrase} {e : Expr}
  {names names' : Names}

open Placed in
theorem Derives.relabel (h : Derives room k xs x) (hy : Alike ys xs) :
    ∃ y, Derives room k ys y ∧ y.bare = x.bare := by
  induction h generalizing ys with
  | lone hk _ ih =>
    obtain ⟨y, hd, hb⟩ := ih hy
    exact ⟨y, .lone hk hd, hb⟩
  | join hk ho _ _ ihx ihy =>
    obtain ⟨us, ws, rfl, hu, hw⟩ := hy.append
    obtain ⟨c, vs, rfl, hv⟩ := hw.cons
    obtain ⟨x', hx, hbx⟩ := ihx hu
    obtain ⟨y', hy, hby⟩ := ihy hv
    exact ⟨_, .join hk ho hx hy, by simp [Phrase.bare, hbx, hby]⟩
  | compare ho _ _ ihx ihy =>
    obtain ⟨us, ws, rfl, hu, hw⟩ := hy.append
    obtain ⟨c, vs, rfl, hv⟩ := hw.cons
    obtain ⟨x', hx, hbx⟩ := ihx hu
    obtain ⟨y', hy, hby⟩ := ihy hv
    exact ⟨_, .compare ho hx hy, by simp [Phrase.bare, hbx, hby]⟩
  | exponent _ _ ihx ihy =>
    obtain ⟨us, ws, rfl, hu, hw⟩ := hy.append
    obtain ⟨c, vs, rfl, hv⟩ := hw.cons
    obtain ⟨x', hx, hbx⟩ := ihx hu
    obtain ⟨y', hy, hby⟩ := ihy hv
    exact ⟨_, .exponent hx hy, by simp [Phrase.bare, hbx, hby]⟩
  | signed hs he _ ih =>
    obtain ⟨us, vs, rfl, hu, hv⟩ := hy.append
    obtain ⟨x', hx, hbx⟩ := ih hv
    exact ⟨_, .signed (hu.isSign hs) (hu.countP ▸ he) hx, hbx⟩
  | negated hs ho _ _ ih =>
    obtain ⟨us, vs, rfl, hu, hv⟩ := hy.append
    obtain ⟨x', hx, hbx⟩ := ih hv
    rw [← hu.countP] at ho
    have hpos : 0 < us.countP isMinus := by omega
    obtain ⟨minus, hm⟩ := Option.isSome_iff_exists.mp
      (List.find?_isSome.mpr (List.countP_pos_iff.mp hpos))
    exact ⟨_, .negated (hu.isSign hs) ho hm hx, by simp [Phrase.bare, hbx]⟩
  | literal hr =>
    obtain ⟨c, rfl⟩ := hy.singleton
    exact ⟨_, .literal hr, rfl⟩
  | pi =>
    obtain ⟨c, rfl⟩ := hy.singleton
    exact ⟨_, .pi, rfl⟩
  | euler =>
    obtain ⟨c, rfl⟩ := hy.singleton
    exact ⟨_, .euler, rfl⟩
  | name hn =>
    obtain ⟨c, rfl⟩ := hy.singleton
    exact ⟨_, .name hn, rfl⟩
  | parenthesized _ ih =>
    obtain ⟨ts, vs, rfl, ht, hv⟩ := hy.append
    obtain ⟨l, us, rfl, hu⟩ := ht.cons
    obtain ⟨r, rfl⟩ := hv.singleton
    obtain ⟨x', hx, hbx⟩ := ih hu
    exact ⟨_, .parenthesized hx, hbx⟩
  | call _ ih =>
    obtain ⟨ts, vs, rfl, ht, hv⟩ := hy.append
    obtain ⟨c, l, us, rfl, hu⟩ := ht.cons₂
    obtain ⟨r, rfl⟩ := hv.singleton
    obtain ⟨x', hx, hbx⟩ := ih hu
    exact ⟨_, .call hx, by simp [Phrase.bare, hbx]⟩
  | call₂ _ _ ihx ihy =>
    obtain ⟨qs, rs, rfl, hq, hr⟩ := hy.append
    obtain ⟨ps, ws, rfl, hp, hw⟩ := hq.append
    obtain ⟨c, l, us, rfl, hu⟩ := hp.cons₂
    obtain ⟨m, vs, rfl, hv⟩ := hw.cons
    obtain ⟨r, rfl⟩ := hr.singleton
    obtain ⟨x', hx, hbx⟩ := ihx hu
    obtain ⟨y', hy, hby⟩ := ihy hv
    exact ⟨_, .call₂ hx hy, by simp [Phrase.bare, hbx, hby]⟩
  | choice _ _ _ ihx ihy ihz =>
    obtain ⟨ts, rs, rfl, ht, hr⟩ := hy.append
    obtain ⟨ss, zs, rfl, hs, hz⟩ := ht.append
    obtain ⟨qs, ws, rfl, hq, hw⟩ := hs.append
    obtain ⟨c, l, us, rfl, hu⟩ := hq.cons₂
    obtain ⟨m, vs, rfl, hv⟩ := hw.cons
    obtain ⟨n, xs, rfl, hx⟩ := hz.cons
    obtain ⟨r, rfl⟩ := hr.singleton
    obtain ⟨x', hx', hbx⟩ := ihx hu
    obtain ⟨y', hy', hby⟩ := ihy hv
    obtain ⟨z', hz', hbz⟩ := ihz hx
    exact ⟨_, .choice hx' hy' hz', by simp [Phrase.bare, hbx, hby, hbz]⟩

theorem Resolves.relabel (h : Resolves names x e names') (hb : y.bare = x.bare) :
    ∃ e', Resolves names y e' names' ∧ e'.bare = e.bare := by
  induction h generalizing y with
  | literal =>
    cases y <;> cases hb
    exact ⟨_, .literal, rfl⟩
  | pi =>
    cases y <;> cases hb
    exact ⟨_, .pi, rfl⟩
  | euler =>
    cases y <;> cases hb
    exact ⟨_, .euler, rfl⟩
  | name hr =>
    cases y <;> cases hb
    exact ⟨_, .name hr, rfl⟩
  | call _ ih =>
    cases y <;> simp only [Phrase.bare, Phrase.call.injEq, reduceCtorEq, true_and] at hb
    obtain ⟨rfl, hb⟩ := hb
    obtain ⟨a, ha, hba⟩ := ih hb
    exact ⟨_, .call ha, by simp [Expr.bare, hba]⟩
  | negation _ ih =>
    cases y <;> simp only [Phrase.bare, Phrase.negation.injEq, reduceCtorEq, true_and] at hb
    obtain ⟨a, ha, hba⟩ := ih hb
    exact ⟨_, .negation ha, by simp [Expr.bare, hba]⟩
  | call₂ _ _ ihx ihy =>
    cases y <;> simp only [Phrase.bare, Phrase.call₂.injEq, reduceCtorEq, true_and] at hb
    obtain ⟨rfl, hbx, hby⟩ := hb
    obtain ⟨a, ha, hba⟩ := ihx hbx
    obtain ⟨b, hb, hbb⟩ := ihy hby
    exact ⟨_, .call₂ ha hb, by simp [Expr.bare, hba, hbb]⟩
  | binary _ _ ihx ihy =>
    cases y <;> simp only [Phrase.bare, Phrase.binary.injEq, reduceCtorEq, true_and] at hb
    obtain ⟨rfl, hbx, hby⟩ := hb
    obtain ⟨a, ha, hba⟩ := ihx hbx
    obtain ⟨b, hb, hbb⟩ := ihy hby
    exact ⟨_, .binary ha hb, by simp [Expr.bare, hba, hbb]⟩
  | choice _ _ _ ihx ihy ihz =>
    cases y <;> simp only [Phrase.bare, Phrase.choice.injEq, reduceCtorEq, true_and] at hb
    obtain ⟨hbx, hby, hbz⟩ := hb
    obtain ⟨a, ha, hba⟩ := ihx hbx
    obtain ⟨b, hb, hbb⟩ := ihy hby
    obtain ⟨d, hd, hbd⟩ := ihz hbz
    exact ⟨_, .choice ha hb hd, by simp [Expr.bare, hba, hbb, hbd]⟩

end FormulaMachine
