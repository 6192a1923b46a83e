import FormulaMachine.Proofs.Columns
import FormulaMachine.Proofs.Number.Reading
import FormulaMachine.Proofs.Parsing.Steps

/-! Whatever is not accepted is the fault of a token or of the end of the text. -/
namespace FormulaMachine

namespace Parser

/-- Nothing that is left to read stands beyond the end, and what is taken for a number is one. -/
structure Fits (length : Nat) (s : Reading) : Prop where
  stop_eq : s.stop = length
  tokens : ∀ p ∈ s.tokens, p.column.start < p.column.stop ∧ p.column.stop ≤ length
  literals : ∀ p ∈ s.tokens, ∀ text, p.token = .literal text → Literal.IsLiteral text.toList

theorem Fits.sublist {length : Nat} {s : Reading} {ts : List Placed} (h : Fits length s)
    (hts : ts.Sublist s.tokens) (names : Names) : Fits length ⟨ts, names, s.stop⟩ :=
  ⟨h.stop_eq, fun p hp => h.tokens p (hts.subset hp), fun p hp => h.literals p (hts.subset hp)⟩

/-- A parser blames the source for its errors, though never the number of its constants, and what it
reads has the given property. -/
def Blames {α : Type} (length : Nat) (p : Parser α) (read : α → Prop := fun _ => True) : Prop :=
  ∀ ⦃s o r⦄, Fits length s → p.run s = (o, r) →
    match o with
    | .ok a => Fits length r ∧ read a
    | .error e => e.Blames length ∧ e.kind ≠ .tooManyConstants

variable {α β : Type} {length room : Nat} {p : Parser α} {f : α → Parser β} {read : α → Prop}
  {read' : β → Prop} {sort : Operator → Bool} {term : Parser Expr} {c : Column}

theorem blames_pure {a : α} (h : read a) : Blames length (pure a) read := by
  intro s o r hs hr
  cases hr
  exact ⟨hs, h⟩

theorem blames_bind (hp : Blames length p read) (hf : ∀ a, read a → Blames length (f a) read') :
    Blames length (p >>= f) read' := by
  intro s o r hs hr
  rw [run_bind] at hr
  split at hr
  · next e m hm =>
    cases hr
    exact hp hs hm
  · next a m hm =>
    obtain ⟨hm, ha⟩ := hp hs hm
    exact hf a ha hm hr

theorem blames_fail {kind : ErrorKind} {detail : String}
    (hk : ({ kind, column := c, detail } : Error).isCompileError = true ∧
      kind ≠ .tooManyConstants)
    (hd : detail ∈ Error.details) (hc : c.start ≤ c.stop) (hl : c.stop ≤ length) :
    Blames length (fail kind c detail) read := by
  intro s o r hs hr
  cases hr
  exact ⟨⟨hk.1, hc, hl, hd⟩, hk.2⟩

theorem blames_next : Blames length next fun (t?, c) =>
    c.start ≤ c.stop ∧ c.stop ≤ length ∧ (t?.isSome → c.start < c.stop) ∧
      ∀ text, t? = some (.literal text) → Literal.IsLiteral text.toList := by
  rintro ⟨_ | ⟨t, ts⟩, names, stop⟩ o r hs hr
  · cases hr
    exact ⟨hs, Nat.le_refl _, Nat.le_of_eq hs.stop_eq, nofun, nofun⟩
  · cases hr
    obtain ⟨hc, hl⟩ := hs.tokens t List.mem_cons_self
    refine ⟨hs.sublist (List.sublist_cons_self t ts) names, Nat.le_of_lt hc, hl, fun _ => hc, ?_⟩
    intro text ht
    exact hs.literals t List.mem_cons_self text (Option.some.inj ht)

theorem blames_operator? : Blames length (operator? sort) fun found =>
    ∀ op c, found = some (op, c) → c.start < c.stop ∧ c.stop ≤ length := by
  intro s o r hs hr
  cases hu : upcoming sort s.tokens with
  | none =>
    rw [run_operator?_none hu] at hr
    cases hr
    exact ⟨hs, nofun⟩
  | some op =>
    obtain ⟨ho, c, ts, ht⟩ := eq_cons_of_upcoming hu
    obtain ⟨tokens, names, stop⟩ := s
    subst ht
    rw [run_operator?_some _ ho] at hr
    cases hr
    refine ⟨hs.sublist (List.sublist_cons_self _ ts) names, ?_⟩
    rintro _ _ ⟨⟩
    exact hs.tokens _ List.mem_cons_self

theorem blames_signs : Blames length signs := by
  intro s o r hs hr
  cases hr
  exact ⟨hs.sublist (List.dropWhile_sublist _) s.names, trivial⟩

theorem blames_resolve (name : String) : Blames length (resolve name) := by
  intro s o r hs hr
  cases hr
  exact ⟨hs.sublist (List.Sublist.refl _) _, trivial⟩

theorem blames_chain (ht : Blames length term) (x : Expr) :
    Blames length (chain sort term x) := by
  intro s o r hs hr
  generalize hn : s.tokens.length = n
  induction n using Nat.strongRecOn generalizing s x with
  | ind n ih =>
    cases hu : upcoming sort s.tokens with
    | none =>
      rw [run_chain_none hu] at hr
      cases hr
      exact ⟨hs, trivial⟩
    | some op =>
      obtain ⟨ho, c, ts, htokens⟩ := eq_cons_of_upcoming hu
      obtain ⟨tokens, names, stop⟩ := s
      subst htokens
      rw [run_chain_some ho, run_bind] at hr
      have hs : Fits length ⟨ts, names, stop⟩ := hs.sublist (List.sublist_cons_self _ ts) names
      split at hr
      · next e m hm =>
        cases hr
        exact ht hs hm
      · next y m hm =>
        have hl : m.tokens.length ≤ ts.length := length_le_of_run hm
        simp only [List.length_cons] at hn
        exact ih m.tokens.length (by omega) _ (ht hs hm).1 hr rfl

theorem blames_leftAssociative (ht : Blames length term) :
    Blames length (leftAssociative sort term) :=
  blames_bind ht fun x _ => blames_chain ht x

theorem blames_openParen : Blames length openParen := by
  apply blames_bind blames_next
  rintro ⟨t?, c⟩ ⟨hc, hl, -⟩
  obtain _ | t := t?
  · exact blames_fail ⟨rfl, nofun⟩ (by decide) hc hl
  · cases t with
    | leftParen => exact blames_pure trivial
    | _ => exact blames_fail ⟨rfl, nofun⟩ (by decide) hc hl

theorem blames_comma : Blames length comma := by
  apply blames_bind blames_next
  rintro ⟨t?, c⟩ ⟨hc, hl, -⟩
  obtain _ | t := t?
  · exact blames_fail ⟨rfl, nofun⟩ (by decide) hc hl
  · cases t with
    | comma => exact blames_pure trivial
    | _ => exact blames_fail ⟨rfl, nofun⟩ (by decide) hc hl

theorem blames_closeParen : Blames length closeParen := by
  apply blames_bind blames_next
  rintro ⟨t?, c⟩ ⟨hc, hl, -⟩
  obtain _ | t := t?
  · exact blames_fail ⟨rfl, nofun⟩ (by decide) hc hl
  · cases t with
    | rightParen => exact blames_pure trivial
    | _ => exact blames_fail ⟨rfl, nofun⟩ (by decide) hc hl

theorem blames_finish : Blames length finish := by
  apply blames_bind blames_next
  rintro ⟨t?, c⟩ ⟨hc, hl, -⟩
  obtain _ | t := t?
  · exact blames_pure trivial
  · cases t <;> exact blames_fail ⟨rfl, nofun⟩ (by decide) hc hl

/-- Too deep a nesting is charged to the token that opens the level. -/
theorem blames_nested {q : Levels → Parser Expr} (hc : c.start < c.stop) (hl : c.stop ≤ length)
    (hq : ∀ n, room = n + 1 → Blames length (q (levels n))) :
    Blames length (nested (below room) c q) := by
  cases room with
  | zero =>
    refine blames_fail ⟨?_, nofun⟩ (by decide) (Nat.le_of_lt hc) hl
    simp [Error.isCompileError, Column.isEmpty, hc]
  | succ n => exact hq n rfl

section
variable {n : Nat} (hx : Blames length (levels n).expression)
include hx

theorem blames_parenthesized : Blames length (parenthesized (levels n)) := by
  apply blames_bind hx
  intro x _
  exact blames_bind blames_closeParen fun _ _ => blames_pure trivial

theorem blames_call (f : Builtin) : Blames length (call c f (levels n)) := by
  apply blames_bind blames_openParen
  intro _ _
  apply blames_bind hx
  intro x _
  cases f with
  | unary f => exact blames_bind blames_closeParen fun _ _ => blames_pure trivial
  | binary f =>
    apply blames_bind blames_comma
    intro _ _
    apply blames_bind hx
    intro y _
    exact blames_bind blames_closeParen fun _ _ => blames_pure trivial

theorem blames_choice : Blames length (choice c (levels n)) := by
  apply blames_bind blames_openParen
  intro _ _
  apply blames_bind hx
  intro x _
  apply blames_bind blames_comma
  intro _ _
  apply blames_bind hx
  intro y _
  apply blames_bind blames_comma
  intro _ _
  apply blames_bind hx
  intro z _
  exact blames_bind blames_closeParen fun _ _ => blames_pure trivial

end

section
variable (hexpr : ∀ n, room = n + 1 → Blames length (levels n).expression)
include hexpr

theorem blames_identifier (hc : c.start < c.stop) (hl : c.stop ≤ length) (name : String) :
    Blames length (identifier (below room) c name) := by
  simp only [identifier]
  split
  · exact blames_pure trivial
  · split
    · exact blames_pure trivial
    · split
      · exact blames_nested hc hl fun n hn => blames_choice (hexpr n hn)
      · split
        · next f _ => exact blames_nested hc hl fun n hn => blames_call (hexpr n hn) f
        · apply blames_bind (blames_resolve name)
          intro b? _
          split
          · exact blames_pure trivial
          · exact blames_pure trivial
          · exact blames_fail ⟨rfl, nofun⟩ (by decide) (Nat.le_of_lt hc) hl

theorem blames_atom : Blames length (atom (below room)) := by
  apply blames_bind blames_next
  rintro ⟨t?, c⟩ ⟨hc, hl, ht, hliteral⟩
  obtain _ | t := t?
  · exact blames_fail ⟨rfl, nofun⟩ (by decide) hc hl
  · cases t with
    | literal text =>
      obtain ⟨x, hx⟩ := Option.isSome_iff_exists.mp (Literal.isSome_read? (hliteral text rfl))
      simp only [hx]
      exact blames_pure trivial
    | leftParen => exact blames_nested (ht rfl) hl fun n hn => blames_parenthesized (hexpr n hn)
    | identifier name => exact blames_identifier hexpr (ht rfl) hl name
    | _ => exact blames_fail ⟨rfl, nofun⟩ (by decide) hc hl

theorem blames_power (hunary : ∀ n, room = n + 1 → Blames length (levels n).unary) :
    Blames length (power (below room)) := by
  apply blames_bind (blames_atom hexpr)
  intro base _
  apply blames_bind blames_operator?
  intro found hf
  split
  · obtain ⟨hc, hl⟩ := hf _ _ rfl
    exact blames_bind (blames_nested hc hl hunary) fun _ _ => blames_pure trivial
  · exact blames_pure trivial

end

theorem blames_unary (h : Blames length (power (below room))) :
    Blames length (unary (below room)) := by
  apply blames_bind blames_signs
  intro run _
  apply blames_bind h
  intro x _
  split
  · exact blames_pure trivial
  · exact blames_pure trivial

theorem blames_comparison (h : Blames length (sum (below room))) :
    Blames length (comparison (below room)) := by
  apply blames_bind h
  intro x _
  apply blames_bind blames_operator?
  intro found _
  split
  · exact blames_pure trivial
  · apply blames_bind h
    intro y _
    apply blames_bind blames_operator?
    intro second hsecond
    split
    · exact blames_pure trivial
    · obtain ⟨hc, hl⟩ := hsecond _ _ rfl
      exact blames_fail ⟨rfl, nofun⟩ (by decide) (Nat.le_of_lt hc) hl

/-- By induction on the room: what is nested is read with less of it. -/
theorem blames_levels (length room : Nat) :
    (Blames length (levels room).expression) ∧
      Blames length (levels room).unary := by
  rw [levels_expression, levels_unary]
  induction room using Nat.strongRecOn with
  | ind room ih =>
    have hexpr : ∀ n, room = n + 1 → Blames length (levels n).expression := by
      rintro n rfl
      rw [levels_expression]
      exact (ih n (Nat.lt_succ_self n)).1
    have hunary : ∀ n, room = n + 1 → Blames length (levels n).unary := by
      rintro n rfl
      rw [levels_unary]
      exact (ih n (Nat.lt_succ_self n)).2
    have hun := blames_unary (blames_power hexpr hunary)
    have hsum : Blames length (sum (below room)) :=
      blames_leftAssociative (blames_leftAssociative hun)
    exact ⟨blames_leftAssociative (blames_comparison hsum), hun⟩

theorem blames_whole (length : Nat) : Blames length whole := by
  apply blames_bind (blames_levels length maxNesting).1
  intro x _
  exact blames_bind blames_finish fun _ _ => blames_pure trivial

end Parser

theorem Expr.errors_of_parse {s : Segment} {names names' : Names} {e : Error}
    (h : parse s names = (.error e, names')) :
    e.Blames (s.offset + s.text.length) ∧ e.kind ≠ .tooManyConstants := by
  have hs : Parser.Fits (s.offset + s.text.length) (.ofText s.text s.offset names) := by
    refine ⟨rfl, ?_, ?_⟩
    · intro p hp
      obtain ⟨-, hc, hl⟩ := s.ordered.of_mem hp
      exact ⟨hc, hl⟩
    · intro p hp text ht
      exact Segment.isLiteral_of_mem hp ht
  rw [Parser.parse_eq_run] at h
  exact Parser.blames_whole _ hs (Prod.ext (Prod.mk.inj h).1 rfl)

/-- A segment that is not accepted has an error inside it, or at its end. -/
theorem Expr.blames_of_parse {s : Segment} {names names' : Names} {e : Error}
    (h : parse s names = (.error e, names')) : e.Blames (s.offset + s.text.length) :=
  (errors_of_parse h).1

end FormulaMachine
