import FormulaMachine.Proofs.Parsing.Layout

/-!
Parsers are blind to columns: what they make of tokens, and why they fail, is the same wherever the
tokens stand.
-/
namespace FormulaMachine

/-- The same tokens and the same names. -/
structure Reading.Alike (s' s : Reading) : Prop where
  tokens : Placed.Alike s'.tokens s.tokens
  names : s'.names = s.names

namespace Parser

variable {α β γ δ : Type}

/-- Two parsers come to the same on two readings, as far as `view` shows it. -/
def BlindAt (view : α → β) (p' p : Parser α) (s' s : Reading) : Prop :=
  Except.bare view (p'.run s').1 = Except.bare view (p.run s).1 ∧
    Reading.Alike (p'.run s').2 (p.run s).2

/-- Two parsers come to the same on alike readings. -/
def Blind (view : α → β) (p' p : Parser α) : Prop :=
  ∀ ⦃s' s⦄, Reading.Alike s' s → BlindAt view p' p s' s

variable {view : α → β} {view' : γ → δ} {p p' : Parser α} {f f' : α → Parser γ} {s s' : Reading}
  {room : Nat} {sort : Operator → Bool} {term : Parser Expr} {x x' : Expr} {c c' : Column}

theorem blindAt_bind (hp : BlindAt view p' p s' s)
    (hf : ∀ a' a r' r, p'.run s' = (.ok a', r') → p.run s = (.ok a, r) → view a' = view a →
      Reading.Alike r' r → BlindAt view' (f' a') (f a) r' r) :
    BlindAt view' (p' >>= f') (p >>= f) s' s := by
  obtain ⟨ho, hr⟩ := hp
  rw [BlindAt, run_bind, run_bind]
  rcases hx : p.run s with ⟨e | a, r⟩ <;> rcases hx' : p'.run s' with ⟨e' | a', r'⟩ <;>
    rw [hx, hx'] at ho hr
  · exact ⟨congrArg Except.error (Except.error.inj ho), hr⟩
  · cases ho
  · cases ho
  · exact hf a' a r' r hx' hx (Except.ok.inj ho) hr

theorem blind_bind (hp : Blind view p' p)
    (hf : ∀ a' a, view a' = view a → Blind view' (f' a') (f a)) :
    Blind view' (p' >>= f') (p >>= f) :=
  fun _ _ h => blindAt_bind (hp h) fun a' a _ _ _ _ ha hr => hf a' a ha hr

theorem blind_pure {a a' : α} (h : view a' = view a) : Blind view (pure a') (pure a) :=
  fun _ _ hs => ⟨congrArg Except.ok h, hs⟩

theorem blind_fail (kind : ErrorKind) (c' c : Column) (detail : String) :
    Blind view (fail kind c' detail) (fail kind c detail) :=
  fun _ _ hs => ⟨rfl, hs⟩

theorem blind_next : Blind Prod.fst next next := by
  rintro ⟨ts', names', stop'⟩ ⟨ts, names, stop⟩ ⟨ht, rfl⟩
  cases ts with
  | nil =>
    obtain rfl : ts' = [] := List.map_eq_nil_iff.mp ht
    exact ⟨rfl, rfl, rfl⟩
  | cons p ts =>
    obtain ⟨c, us, rfl, hu⟩ := Placed.Alike.cons ht
    exact ⟨rfl, hu, rfl⟩

theorem upcoming_alike {ts ts' : List Placed} (h : Placed.Alike ts' ts) :
    upcoming sort ts' = upcoming sort ts := by
  cases ts with
  | nil =>
    obtain rfl : ts' = [] := List.map_eq_nil_iff.mp h
    rfl
  | cons p ts =>
    obtain ⟨c, us, rfl, -⟩ := h.cons
    rfl

theorem blind_operator? : Blind (Option.map Prod.fst) (operator? sort) (operator? sort) := by
  intro s' s h
  cases hu : upcoming sort s.tokens with
  | none =>
    rw [BlindAt, run_operator?_none hu, run_operator?_none ((upcoming_alike h.tokens).trans hu)]
    exact ⟨rfl, h⟩
  | some op =>
    obtain ⟨ts', names', stop'⟩ := s'
    obtain ⟨ts, names, stop⟩ := s
    obtain ⟨ht, rfl⟩ := h
    obtain ⟨ho, c, us, rfl⟩ := eq_cons_of_upcoming hu
    obtain ⟨c', us', rfl, hus⟩ := Placed.Alike.cons ht
    rw [BlindAt, run_operator?_some sort ho, run_operator?_some sort ho]
    exact ⟨rfl, hus, rfl⟩

theorem blind_signs : Blind (List.map Placed.token) signs signs := by
  rintro ⟨ts', names', stop'⟩ ⟨ts, names, stop⟩ ⟨ht, rfl⟩
  have hsplit : Placed.Alike (ts'.takeWhile Placed.isSign) (ts.takeWhile Placed.isSign) ∧
      Placed.Alike (ts'.dropWhile Placed.isSign) (ts.dropWhile Placed.isSign) := by
    let sign (t : Token) : Bool := Placed.isSign ⟨t, default⟩
    have hsign : Placed.isSign = sign ∘ Placed.token := rfl
    rw [Placed.Alike, Placed.Alike, hsign, ← List.takeWhile_map, ← List.takeWhile_map,
      ← List.dropWhile_map, ← List.dropWhile_map]
    exact ⟨congrArg _ ht, congrArg _ ht⟩
  exact ⟨congrArg Except.ok hsplit.1, hsplit.2, rfl⟩

theorem blind_resolve (name : String) : Blind id (resolve name) (resolve name) := by
  rintro ⟨ts', names', stop'⟩ ⟨ts, names, stop⟩ ⟨ht, rfl⟩
  exact ⟨rfl, ht, rfl⟩

/-- By induction on the number of tokens that are left. -/
theorem blind_chain (hterm : Blind Expr.bare term term) (hx : x'.bare = x.bare) :
    Blind Expr.bare (chain sort term x') (chain sort term x) := by
  intro s' s h
  generalize hn : s.tokens.length = n
  induction n using Nat.strongRecOn generalizing s' s x' x with
  | ind n ih =>
    cases hu : upcoming sort s.tokens with
    | none =>
      rw [BlindAt, run_chain_none hu, run_chain_none ((upcoming_alike h.tokens).trans hu)]
      exact ⟨congrArg Except.ok hx, h⟩
    | some op =>
      obtain ⟨ts', names', stop'⟩ := s'
      obtain ⟨ts, names, stop⟩ := s
      obtain ⟨ht, rfl⟩ := h
      obtain ⟨ho, c, us, rfl⟩ := eq_cons_of_upcoming hu
      obtain ⟨c', us', rfl, hus⟩ := Placed.Alike.cons ht
      rw [BlindAt, run_chain_some ho, run_chain_some ho]
      refine blindAt_bind (hterm ⟨hus, rfl⟩) fun y' y r' r _ hy hb hr => ?_
      have hl : r.tokens.length ≤ us.length := length_le_of_run hy
      simp only [List.length_cons] at hn
      exact ih r.tokens.length (by omega) (by simp [Expr.bare, hx, hb]) hr rfl

theorem blind_leftAssociative (hterm : Blind Expr.bare term term) :
    Blind Expr.bare (leftAssociative sort term) (leftAssociative sort term) :=
  blind_bind hterm fun _ _ hx => blind_chain hterm hx

/-- What is decided by the next token is decided by it in any column. -/
theorem blind_next_bind {f : Option Token × Column → Parser γ}
    (h : ∀ t? c' c, Blind view' (f (t?, c')) (f (t?, c))) :
    Blind view' (next >>= f) (next >>= f) := by
  apply blind_bind blind_next
  rintro ⟨t?, c'⟩ ⟨_, c⟩ rfl
  exact h t? c' c

theorem blind_openParen : Blind id openParen openParen := by
  apply blind_next_bind
  intro t? c' c
  obtain _ | t := t?
  · exact blind_fail ..
  · cases t with
    | leftParen => exact blind_pure rfl
    | _ => exact blind_fail ..

theorem blind_comma : Blind id comma comma := by
  apply blind_next_bind
  intro t? c' c
  obtain _ | t := t?
  · exact blind_fail ..
  · cases t with
    | comma => exact blind_pure rfl
    | _ => exact blind_fail ..

theorem blind_closeParen : Blind id closeParen closeParen := by
  apply blind_next_bind
  intro t? c' c
  obtain _ | t := t?
  · exact blind_fail ..
  · cases t with
    | rightParen => exact blind_pure rfl
    | _ => exact blind_fail ..

theorem blind_finish : Blind id finish finish := by
  apply blind_next_bind
  intro t? c' c
  obtain _ | t := t?
  · exact blind_pure rfl
  · cases t <;> exact blind_fail ..

theorem blind_nested {q q' : Levels → Parser Expr}
    (hq : ∀ n, room = n + 1 → Blind Expr.bare (q' (levels n)) (q (levels n))) :
    Blind Expr.bare (nested (below room) c' q') (nested (below room) c q) := by
  cases room with
  | zero => exact blind_fail ..
  | succ n => exact hq n rfl

section
variable {n : Nat} (hx : Blind Expr.bare (levels n).expression (levels n).expression)
include hx

theorem blind_parenthesized :
    Blind Expr.bare (parenthesized (levels n)) (parenthesized (levels n)) := by
  apply blind_bind hx
  intro x' x hb
  exact blind_bind blind_closeParen fun _ _ _ => blind_pure hb

theorem blind_call (f : Builtin) :
    Blind Expr.bare (call c' f (levels n)) (call c f (levels n)) := by
  apply blind_bind blind_openParen
  intro _ _ _
  apply blind_bind hx
  intro x' x hbx
  cases f with
  | unary f =>
    exact blind_bind blind_closeParen fun _ _ _ => blind_pure (by simp [Expr.bare, hbx])
  | binary f =>
    apply blind_bind blind_comma
    intro _ _ _
    apply blind_bind hx
    intro y' y hby
    exact blind_bind blind_closeParen fun _ _ _ => blind_pure (by simp [Expr.bare, hbx, hby])

theorem blind_choice : Blind Expr.bare (choice c' (levels n)) (choice c (levels n)) := by
  apply blind_bind blind_openParen
  intro _ _ _
  apply blind_bind hx
  intro x' x hbx
  apply blind_bind blind_comma
  intro _ _ _
  apply blind_bind hx
  intro y' y hby
  apply blind_bind blind_comma
  intro _ _ _
  apply blind_bind hx
  intro z' z hbz
  exact blind_bind blind_closeParen fun _ _ _ => blind_pure (by simp [Expr.bare, hbx, hby, hbz])

end

section
variable (hexpr : ∀ n, room = n + 1 → Blind Expr.bare (levels n).expression (levels n).expression)
include hexpr

theorem blind_identifier (name : String) :
    Blind Expr.bare (identifier (below room) c' name) (identifier (below room) c name) := by
  simp only [identifier]
  split
  · exact blind_pure rfl
  · split
    · exact blind_pure rfl
    · split
      · exact blind_nested fun n hn => blind_choice (hexpr n hn)
      · split
        · next f _ => exact blind_nested fun n hn => blind_call (hexpr n hn) f
        · apply blind_bind (blind_resolve name)
          rintro b? _ rfl
          obtain _ | b := b?
          · exact blind_fail ..
          · cases b <;> exact blind_pure rfl

theorem blind_atom : Blind Expr.bare (atom (below room)) (atom (below room)) := by
  apply blind_next_bind
  intro t? c' c
  obtain _ | t := t?
  · exact blind_fail ..
  · cases t with
    | literal text =>
      simp only
      split
      · exact blind_pure rfl
      · exact blind_fail ..
    | leftParen => exact blind_nested fun n hn => blind_parenthesized (hexpr n hn)
    | identifier name => exact blind_identifier hexpr name
    | _ => exact blind_fail ..

theorem blind_power
    (hunary : ∀ n, room = n + 1 → Blind Expr.bare (levels n).unary (levels n).unary) :
    Blind Expr.bare (power (below room)) (power (below room)) := by
  apply blind_bind (blind_atom hexpr)
  intro x' x hbx
  apply blind_bind blind_operator?
  intro found' found hfound
  obtain _ | ⟨op, c⟩ := found <;> obtain _ | ⟨op', c'⟩ := found' <;> cases hfound
  · exact blind_pure hbx
  · exact blind_bind (blind_nested hunary) fun y' y hby => blind_pure (by simp [Expr.bare, hbx, hby])

end

theorem isSome_negation? {run run' : List Placed} (h : Placed.Alike run' run) :
    (Placed.negation? run').isSome = (Placed.negation? run).isSome := by
  have hsome (run : List Placed) :
      (Placed.negation? run).isSome = decide (run.countP Placed.isMinus % 2 = 1) := by
    rw [negation?_eq]
    split
    · next ho =>
      have hpos : 0 < run.countP Placed.isMinus := by omega
      simp [ho, List.find?_isSome.mpr (List.countP_pos_iff.mp hpos)]
    · next ho => simp [ho]
  rw [hsome, hsome, h.countP]

theorem blind_unary (h : Blind Expr.bare (power (below room)) (power (below room))) :
    Blind Expr.bare (unary (below room)) (unary (below room)) := by
  apply blind_bind blind_signs
  intro run' run hrun
  apply blind_bind h
  intro x' x hbx
  have hsome := isSome_negation? hrun
  generalize Placed.negation? run = sign at hsome ⊢
  generalize Placed.negation? run' = sign' at hsome ⊢
  obtain _ | c := sign <;> obtain _ | c' := sign' <;> cases hsome
  · exact blind_pure hbx
  · exact blind_pure (by simp [Expr.bare, hbx])

theorem blind_comparison (h : Blind Expr.bare (sum (below room)) (sum (below room))) :
    Blind Expr.bare (comparison (below room)) (comparison (below room)) := by
  apply blind_bind h
  intro x' x hbx
  apply blind_bind blind_operator?
  intro found' found hfound
  obtain _ | ⟨op, c⟩ := found <;> obtain _ | ⟨op', c'⟩ := found' <;> cases hfound
  · exact blind_pure hbx
  · apply blind_bind h
    intro y' y hby
    apply blind_bind blind_operator?
    intro second' second hsecond
    obtain _ | ⟨op, c⟩ := second <;> obtain _ | ⟨op', c'⟩ := second' <;> cases hsecond
    · exact blind_pure (by simp [Expr.bare, hbx, hby])
    · exact blind_fail ..

/-- By induction on the room: what is nested is read with less of it. -/
theorem blind_levels (room : Nat) :
    Blind Expr.bare (levels room).expression (levels room).expression ∧
      Blind Expr.bare (levels room).unary (levels room).unary := by
  rw [levels_expression, levels_unary]
  induction room using Nat.strongRecOn with
  | ind room ih =>
    have hexpr : ∀ n, room = n + 1 →
        Blind Expr.bare (levels n).expression (levels n).expression := by
      rintro n rfl
      rw [levels_expression]
      exact (ih n (Nat.lt_succ_self n)).1
    have hunary : ∀ n, room = n + 1 → Blind Expr.bare (levels n).unary (levels n).unary := by
      rintro n rfl
      rw [levels_unary]
      exact (ih n (Nat.lt_succ_self n)).2
    have hun := blind_unary (blind_power hexpr hunary)
    have hsum : Blind Expr.bare (sum (below room)) (sum (below room)) :=
      blind_leftAssociative (blind_leftAssociative hun)
    exact ⟨blind_leftAssociative (blind_comparison hsum), hun⟩

theorem blind_whole : Blind Expr.bare whole whole := by
  apply blind_bind (blind_levels maxNesting).1
  intro x' x hbx
  exact blind_bind blind_finish fun _ _ _ => blind_pure hbx

end Parser

/-- Segments with the same tokens are read as the same expression, or fail for the same reason. -/
theorem Expr.parse_alike {s s' : Segment} (h : Placed.Alike s'.tokens s.tokens) (names : Names) :
    Except.bare bare (parse s' names).1 = Except.bare bare (parse s names).1 ∧
      (parse s' names).2 = (parse s names).2 := by
  have halike : Reading.Alike (.ofText s'.text s'.offset names)
      (.ofText s.text s.offset names) := ⟨h, rfl⟩
  obtain ⟨ho, hr⟩ := Parser.blind_whole halike
  exact ⟨ho, hr.names⟩

end FormulaMachine
