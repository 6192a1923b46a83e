import FormulaMachine.Proofs.Lexing.Words
import FormulaMachine.Proofs.Parsing.Steps

/-!
Where parsers give up. The token that a parser blames is the first that it cannot go on with: no
tokens behind it make a difference, and the tokens in front of it can be completed.
-/
namespace FormulaMachine.Parser

/-- No operator comes next, so that an expression ends in front of the tokens. -/
def Ends (ts : List Placed) : Prop := ∀ t ∈ ts.head?, t.operator? = none

/-- What stops in front of `ts` stops in front of `us`, too. -/
def Agrees (us ts : List Placed) : Prop := us.head? = ts.head? ∨ Ends us

/-- With certain tokens behind them the parser takes all of the tokens. What is put behind them can
be written down, and no operator comes first in it. -/
def Completes {α : Type} (p : Parser α) (names : Names) (ts : List Placed) : Prop :=
  ∃ more a names', (∀ q ∈ more, q.token.Legible) ∧ ∀ tail stop, Ends tail →
    Ends (more ++ tail) ∧ p.run ⟨ts ++ (more ++ tail), names, stop⟩ = (.ok a, ⟨tail, names', stop⟩)

/-- From `s` to `r` the parser takes the tokens `ts`, whatever stands further behind them than the
token that ended them. -/
structure Takes {α : Type} (p : Parser α) (s : Reading) (ts : List Placed) (a : α) (r : Reading) :
    Prop where
  tokens_eq : s.tokens = ts ++ r.tokens
  run_eq : ∀ us stop, Agrees us r.tokens →
    p.run ⟨ts ++ us, s.names, stop⟩ = (.ok a, ⟨us, r.names, stop⟩)

/-- The ways in which a parser can fail that stands right behind the token `last?`. -/
inductive Fails {α : Type} (last? : Option Placed) (p : Parser α) (s : Reading) (e : Error) : Prop
  | within {good rest : List Placed} {q : Placed} :
    s.tokens = good ++ q :: rest → e.column = q.column → Completes p s.names good →
    (∀ us stop, (p.run ⟨good ++ q :: us, s.names, stop⟩).1 = .error e) → Fails last? p s e
  | outright {q : Placed} :
    last? = some q → e.column = q.column →
    (∀ us stop, (p.run ⟨us, s.names, stop⟩).1 = .error e) → Fails last? p s e
  | atEnd : e.column = .before s.stop → Completes p s.names s.tokens → Fails last? p s e

/-- What a run that ends at `r` shows of all runs that begin in the same way. -/
def Verdict {α : Type} (last? : Option Placed) (p : Parser α) (s : Reading) :
    Except Error α → Reading → Prop
  | .ok a, r => ∃ ts, Takes p s ts a r
  | .error e, _ => Fails last? p s e

/-- Behind the token `last?` the parser looks no further than it has to. -/
def PromptAfter {α : Type} (last? : Option Placed) (p : Parser α) : Prop :=
  ∀ ⦃s o r⦄, p.run s = (o, r) → Verdict last? p s o r

/-- A parser that looks no further than it has to, and that some tokens satisfy. -/
structure Prompt {α : Type} (p : Parser α) : Prop where
  after_none : PromptAfter none p
  completes : ∀ names, Completes p names []

variable {α β : Type} {p : Parser α} {f : α → Parser β} {last? : Option Placed} {s r m : Reading}
  {e : Error} {ts us : List Placed} {names : Names} {sort : Operator → Bool} {term : Parser Expr}
  {q : Placed} {a : α} {b : β}

theorem Ends.upcoming (h : Ends ts) (sort : Operator → Bool) : upcoming sort ts = none := by
  cases ts with
  | nil => rfl
  | cons t ts =>
    have ht : t.operator? = none := h t rfl
    simp [Parser.upcoming, ht]

theorem Agrees.append (h : Agrees us ts) (vs : List Placed) : Agrees (vs ++ us) (vs ++ ts) := by
  cases vs with
  | nil => exact h
  | cons v vs => exact .inl rfl

theorem Agrees.upcoming (h : Agrees us ts) (hn : upcoming sort ts = none) :
    Parser.upcoming sort us = none := by
  rcases h with h | h
  · rw [Parser.upcoming, h]
    exact hn
  · exact h.upcoming sort

theorem run_bind_error (h : (p.run s).1 = .error e) : ((p >>= f).run s).1 = .error e := by
  rw [run_bind]
  split
  · next hp =>
    rw [hp] at h
    cases h
    rfl
  · next hp =>
    rw [hp] at h
    cases h

/-! Completing tokens. -/

theorem completes_nil (h : ∀ us stop, Ends us → p.run ⟨us, names, stop⟩ = (.ok a, ⟨us, names, stop⟩)) :
    Completes p names [] :=
  ⟨[], a, names, nofun, fun us stop hu => ⟨hu, h us stop hu⟩⟩

/-- A parser for one token is satisfied by that token. -/
theorem completes_token {t : Token} (ht : t ∈ [.identifier "pi", .leftParen, .comma, .rightParen])
    (h : ∀ us stop, p.run ⟨⟨t, .before 0⟩ :: us, names, stop⟩ = (.ok a, ⟨us, names, stop⟩)) :
    Completes p names [] := by
  have hl := Token.legible_of_mem_call ht
  refine ⟨[⟨t, .before 0⟩], a, names, by simpa using hl, fun us stop _ => ⟨?_, h us stop⟩⟩
  rintro _ ⟨⟩
  simp only [List.mem_cons, List.not_mem_nil, or_false] at ht
  rcases ht with rfl | rfl | rfl | rfl <;> rfl

theorem Completes.bind (h : Completes p names ts) (hf : ∀ a names, Completes (f a) names []) :
    Completes (p >>= f) names ts := by
  obtain ⟨more, a, names', hl, h⟩ := h
  obtain ⟨more', b, names'', hl', h'⟩ := hf a names'
  refine ⟨more ++ more', b, names'', List.forall_mem_append.mpr ⟨hl, hl'⟩, fun us stop hu => ?_⟩
  obtain ⟨he', hr'⟩ := h' us stop hu
  obtain ⟨he, hr⟩ := h (more' ++ us) stop he'
  rw [List.append_assoc]
  exact ⟨he, (run_bind_ok hr).trans hr'⟩

/-- In front of no operator a parser may go on as another one. -/
theorem Completes.of_run {p' : Parser α} (h : Completes p' names [])
    (hrun : ∀ us stop, Ends us → p.run ⟨us, names, stop⟩ = p'.run ⟨us, names, stop⟩) :
    Completes p names [] := by
  obtain ⟨more, a, names', hl, h⟩ := h
  refine ⟨more, a, names', hl, fun us stop hu => ?_⟩
  obtain ⟨he, hr⟩ := h us stop hu
  exact ⟨he, (hrun _ stop he).trans hr⟩

/-- What a parser has taken stays taken in front of what completes the tokens behind it. -/
theorem Takes.completes {good rest : List Placed} (h : Takes p s ts a m)
    (hm : m.tokens = good ++ rest) (hc : Completes (f a) m.names good) :
    Completes (p >>= f) s.names (ts ++ good) := by
  obtain ⟨more, b, names', hl, hc⟩ := hc
  refine ⟨more, b, names', hl, fun us stop hu => ?_⟩
  obtain ⟨he, hr⟩ := hc us stop hu
  have ha : Agrees (good ++ (more ++ us)) m.tokens := by
    rw [hm]
    exact Agrees.append (.inr he) good
  rw [List.append_assoc]
  exact ⟨he, (run_bind_ok (h.run_eq _ stop ha)).trans hr⟩

theorem Takes.completes_taken (h : Takes p s ts a r) : Completes p s.names ts :=
  ⟨[], a, r.names, nofun, fun us stop hu => ⟨hu, h.run_eq us stop (.inr hu)⟩⟩

theorem Takes.bind (h : Takes p s ts a m) (hf : Takes (f a) m us b r) :
    Takes (p >>= f) s (ts ++ us) b r := by
  refine ⟨by rw [h.tokens_eq, hf.tokens_eq, List.append_assoc], fun vs stop hv => ?_⟩
  have ha : Agrees (us ++ vs) m.tokens := by
    rw [hf.tokens_eq]
    exact hv.append us
  rw [List.append_assoc, run_bind_ok (h.run_eq _ stop ha)]
  exact hf.run_eq vs stop hv

theorem Takes.stop_eq (h : Takes p s ts a r) (hr : p.run s = (.ok a, r)) : r.stop = s.stop := by
  obtain ⟨tokens, names, stop⟩ := s
  obtain ⟨rfl, h⟩ := h
  have h := hr.symm.trans (h r.tokens stop (.inl rfl))
  rw [(Prod.mk.inj h).2]

/-- The second of two parsers fails where it would by itself. -/
theorem Fails.after (h : Takes p s ts a m) (hr : p.run s = (.ok a, m))
    (hf : Fails none (f a) m e) : Fails last? (p >>= f) s e := by
  cases hf with
  | @within good rest q hm hcol hg he =>
    have ht : s.tokens = (ts ++ good) ++ q :: rest := by
      rw [h.tokens_eq, hm, List.append_assoc]
    refine .within ht hcol (h.completes hm hg) fun us stop => ?_
    · have ha : Agrees (good ++ q :: us) m.tokens := by
        rw [hm]
        exact Agrees.append (.inl (List.head?_cons.trans List.head?_cons.symm)) good
      rw [List.append_assoc, run_bind_ok (h.run_eq _ stop ha)]
      exact he us stop
  | outright hl => cases hl
  | atEnd hcol hg =>
    rw [h.stop_eq hr] at hcol
    refine .atEnd hcol ?_
    rw [h.tokens_eq]
    exact h.completes (List.append_nil _).symm hg

/-! Looking no further. -/

theorem Prompt.after (h : Prompt p) : PromptAfter last? p := by
  intro s o r hr
  have h := h.after_none hr
  cases o with
  | ok a => exact h
  | error e =>
    cases h with
    | within ht hcol hg he => exact .within ht hcol hg he
    | outright hl => cases hl
    | atEnd hcol hg => exact .atEnd hcol hg

theorem promptAfter_of_takes (h : ∀ s, ∃ ts a r, p.run s = (.ok a, r) ∧ Takes p s ts a r) :
    PromptAfter last? p := by
  intro s o r hr
  obtain ⟨ts, a, r', hr', ht⟩ := h s
  rw [hr'] at hr
  cases hr
  exact ⟨ts, ht⟩

theorem prompt_pure (a : α) : Prompt (pure a) where
  after_none := promptAfter_of_takes fun s => ⟨[], a, s, rfl, rfl, fun _ _ _ => rfl⟩
  completes _ := completes_nil fun _ _ _ => rfl

/-- What fails outright is charged to the token before. -/
theorem promptAfter_fail {kind : ErrorKind} {detail : String} :
    PromptAfter (some q) (fail kind q.column detail : Parser α) := by
  intro s o r hr
  cases hr
  exact .outright rfl rfl fun _ _ => rfl

theorem verdict_bind (hp : PromptAfter last? p) (hc : ∀ a names, Completes (f a) names [])
    (hf : ∀ ⦃a m⦄, p.run s = (.ok a, m) → ∀ ⦃o⦄, (f a).run m = (o, r) → Verdict none (f a) m o r)
    {o : Except Error β} (hr : (p >>= f).run s = (o, r)) : Verdict last? (p >>= f) s o r := by
  rw [run_bind] at hr
  split at hr
  · next e m hm =>
    cases hr
    cases hp hm with
    | within ht hcol hg he =>
      exact .within ht hcol (hg.bind hc) fun us stop => run_bind_error (he us stop)
    | outright hl hcol he => exact .outright hl hcol fun us stop => run_bind_error (he us stop)
    | atEnd hcol hg => exact .atEnd hcol (hg.bind hc)
  · next a m hm =>
    obtain ⟨ts, ht⟩ := hp hm
    have hfa := hf hm hr
    cases o with
    | ok b =>
      obtain ⟨us, hu⟩ := hfa
      exact ⟨ts ++ us, ht.bind hu⟩
    | error e => exact Fails.after ht hm hfa

theorem PromptAfter.bind (hp : PromptAfter last? p) (hf : ∀ a, Prompt (f a)) :
    PromptAfter last? (p >>= f) :=
  fun _ _ _ hr => verdict_bind hp (fun a => (hf a).completes) (fun a _ _ _ hr => (hf a).after hr) hr

theorem Prompt.bind (hp : Prompt p) (hf : ∀ a, Prompt (f a)) : Prompt (p >>= f) where
  after_none := hp.after_none.bind hf
  completes names := (hp.completes names).bind fun a => (hf a).completes

/-- A parser that goes on as another one behind the token `q`. -/
theorem Verdict.behind {p' : Parser α} {stop : Nat} {o : Except Error α}
    (h : Verdict (some q) p' ⟨ts, names, stop⟩ o r)
    (hrun : ∀ us names stop, p.run ⟨q :: us, names, stop⟩ = p'.run ⟨us, names, stop⟩)
    (hc : Completes p names []) : Verdict last? p ⟨q :: ts, names, stop⟩ o r := by
  have completes_cons {good : List Placed} (hg : Completes p' names good) :
      Completes p names (q :: good) := by
    obtain ⟨more, a, names', hl, hg⟩ := hg
    refine ⟨more, a, names', hl, fun us stop hu => ?_⟩
    obtain ⟨he, hr⟩ := hg us stop hu
    exact ⟨he, (hrun ..).trans hr⟩
  cases o with
  | ok a =>
    obtain ⟨us, ht, hu⟩ := h
    exact ⟨q :: us, congrArg (q :: ·) ht, fun vs stop hv => (hrun ..).trans (hu vs stop hv)⟩
  | error e =>
    cases h with
    | @within good rest q' ht hcol hg he =>
      have ht : q :: ts = (q :: good) ++ q' :: rest := congrArg (q :: ·) ht
      refine .within ht hcol (completes_cons hg) fun vs stop => ?_
      rw [List.cons_append, hrun]
      exact he vs stop
    | @outright q' hl hcol he =>
      cases hl
      have ht : q :: ts = [] ++ q :: ts := rfl
      refine .within ht hcol hc fun vs stop => ?_
      rw [List.nil_append, hrun]
      exact he vs stop
    | atEnd hcol hg => exact .atEnd hcol (completes_cons hg)

/-- A parser that begins with any token fails at the end of the text. -/
theorem prompt_next {k : Option Token × Column → Parser α}
    (hk : ∀ q : Placed, PromptAfter (some q) (k (some q.token, q.column)))
    (hend : ∀ c, ∃ kind detail, k (none, c) = fail kind c detail)
    (hc : ∀ names, Completes (next >>= k) names []) : Prompt (next >>= k) := by
  refine ⟨?_, hc⟩
  rintro ⟨_ | ⟨q, ts⟩, names, stop⟩ o r hr
  · obtain ⟨kind, detail, hk⟩ := hend (.before stop)
    have hn : (next >>= k).run ⟨[], names, stop⟩ = (k (none, .before stop)).run _ := rfl
    rw [hn, hk] at hr
    cases hr
    exact .atEnd rfl (hc names)
  · have hrun : ∀ us names stop, (next >>= k).run ⟨q :: us, names, stop⟩ =
        (k (some q.token, q.column)).run ⟨us, names, stop⟩ := fun _ _ _ => rfl
    rw [hrun] at hr
    exact (hk q hr).behind hrun (hc names)

theorem prompt_operator? {k : Option (Operator × Column) → Parser α} (hnone : Prompt (k none))
    (hsome : ∀ op c, PromptAfter (some ⟨.operator op, c⟩) (k (some (op, c)))) :
    Prompt (operator? sort >>= k) := by
  have hc : ∀ names, Completes (operator? sort >>= k) names [] := fun names =>
    (hnone.completes names).of_run fun _ _ hu => run_bind_ok (run_operator?_none (hu.upcoming sort))
  refine ⟨?_, hc⟩
  intro s o r hr
  cases hu : upcoming sort s.tokens with
  | none =>
    have ht : Takes (operator? sort) s [] none s :=
      ⟨rfl, fun _ _ ha => run_operator?_none (ha.upcoming hu)⟩
    have hn := run_operator?_none hu
    rw [run_bind_ok hn] at hr
    have h := hnone.after_none hr
    cases o with
    | ok a =>
      obtain ⟨us, h⟩ := h
      exact ⟨_, ht.bind h⟩
    | error e => exact Fails.after ht hn h
  | some op =>
    obtain ⟨ho, c, ts, htokens⟩ := eq_cons_of_upcoming hu
    obtain ⟨tokens, names, stop⟩ := s
    subst htokens
    have hrun : ∀ us names stop,
        (operator? sort >>= k).run ⟨⟨.operator op, c⟩ :: us, names, stop⟩ =
          (k (some (op, c))).run ⟨us, names, stop⟩ := fun _ _ _ =>
      run_bind_ok (run_operator?_some _ ho)
    rw [hrun] at hr
    exact (hsome op c hr).behind hrun (hc names)

theorem not_isSign_of_head? (h : Agrees us (ts.dropWhile Placed.isSign)) :
    ∀ t ∈ us.head?, t.isSign = false := by
  intro t ht
  rcases h with h | h
  · have hd := List.head?_dropWhile_not Placed.isSign ts
    rw [← h, ht] at hd
    simpa using hd
  · simp [Placed.isSign, h t ht]

theorem takes_signs (s : Reading) :
    Takes signs s (s.tokens.takeWhile Placed.isSign) (s.tokens.takeWhile Placed.isSign)
      { s with tokens := s.tokens.dropWhile Placed.isSign } := by
  refine ⟨List.takeWhile_append_dropWhile.symm, fun us stop hu => ?_⟩
  obtain ⟨ht, hd⟩ := span_append
    (fun p (hp : p ∈ s.tokens.takeWhile Placed.isSign) => List.all_eq_true.mp List.all_takeWhile p hp)
    (not_isSign_of_head? hu)
  simp only [run_signs, ht, hd]

theorem prompt_signs : Prompt signs where
  after_none := promptAfter_of_takes fun s => ⟨_, _, _, run_signs s, takes_signs s⟩
  completes names := completes_nil fun us stop hu => (takes_signs ⟨[], names, 0⟩).run_eq us stop (.inr hu)

/-- Whether a name is known is settled when it has been read. -/
theorem promptAfter_resolve {name : String} {k : Option Binding → Parser α}
    (hsome : ∀ b, ∃ a, k (some b) = pure a)
    (hnone : ∃ kind detail, k none = fail kind q.column detail) :
    PromptAfter (some q) (resolve name >>= k) := by
  intro s o r hr
  have hrun (us : List Placed) (stop : Nat) :
      (resolve name >>= k).run ⟨us, s.names, stop⟩ =
        (k (s.names.resolve name).1).run ⟨us, (s.names.resolve name).2, stop⟩ :=
    run_bind_ok (run_resolve name _)
  rw [hrun s.tokens s.stop] at hr
  cases hb : (s.names.resolve name).1 with
  | some b =>
    obtain ⟨a, ha⟩ := hsome b
    rw [hb, ha] at hr
    cases hr
    exact ⟨[], rfl, fun us stop _ => (hrun us stop).trans (by rw [hb, ha]; rfl)⟩
  | none =>
    obtain ⟨kind, detail, hk⟩ := hnone
    rw [hb, hk] at hr
    cases hr
    exact .outright rfl rfl fun us stop => by rw [hrun us stop, hb, hk]; rfl

theorem prompt_chain (ht : Prompt term) (x : Expr) : Prompt (chain sort term x) := by
  have hc (x : Expr) (names : Names) : Completes (chain sort term x) names [] :=
    completes_nil fun _ _ hu => run_chain_none (hu.upcoming sort)
  refine ⟨?_, hc x⟩
  intro s o r hr
  -- What stands behind the next term is shorter, so the induction is on what is left to read.
  generalize hn : s.tokens.length = n
  induction n using Nat.strongRecOn generalizing s x o r with
  | ind n ih =>
    cases hu : upcoming sort s.tokens with
    | none =>
      rw [run_chain_none hu] at hr
      cases hr
      exact ⟨[], rfl, fun us stop ha => run_chain_none (ha.upcoming hu)⟩
    | some op =>
      obtain ⟨ho, c, ts, htokens⟩ := eq_cons_of_upcoming hu
      obtain ⟨tokens, names, stop⟩ := s
      subst htokens
      have hrun : ∀ us names stop, (chain sort term x).run ⟨⟨.operator op, c⟩ :: us, names, stop⟩ =
          (term >>= fun y => chain sort term (.binary c op x y)).run ⟨us, names, stop⟩ :=
        fun _ _ _ => run_chain_some ho
      rw [hrun] at hr
      refine (verdict_bind ht.after (fun _ => hc _) ?_ hr).behind hrun (hc x names)
      intro y m hm o hr
      have hl : m.tokens.length ≤ ts.length := length_le_of_run hm
      simp only [List.length_cons] at hn
      exact ih m.tokens.length (by omega) _ hr rfl

theorem prompt_leftAssociative (ht : Prompt term) : Prompt (leftAssociative sort term) :=
  ht.bind (prompt_chain ht)

theorem prompt_openParen : Prompt openParen := by
  refine prompt_next (fun q => ?_) (fun c => ⟨_, _, rfl⟩) fun names =>
    completes_token (by simp) fun us stop => run_openParen (.before 0) us names stop
  cases q.token with
  | leftParen => exact (prompt_pure ()).after
  | _ => exact promptAfter_fail

theorem prompt_comma : Prompt comma := by
  refine prompt_next (fun q => ?_) (fun c => ⟨_, _, rfl⟩) fun names =>
    completes_token (by simp) fun us stop => run_comma (.before 0) us names stop
  cases q.token with
  | comma => exact (prompt_pure ()).after
  | _ => exact promptAfter_fail

theorem prompt_closeParen : Prompt closeParen := by
  refine prompt_next (fun q => ?_) (fun c => ⟨_, _, rfl⟩) fun names =>
    completes_token (by simp) fun us stop => run_closeParen (.before 0) us names stop
  cases q.token with
  | rightParen => exact (prompt_pure ()).after
  | _ => exact promptAfter_fail

section
variable {n : Nat} {c : Column} (hx : Prompt (levels n).expression)
include hx

theorem prompt_parenthesized : Prompt (parenthesized (levels n)) := by
  apply hx.bind
  intro x
  exact prompt_closeParen.bind fun _ => prompt_pure x

theorem prompt_call (f : Builtin) : Prompt (call c f (levels n)) := by
  apply prompt_openParen.bind
  intro _
  apply hx.bind
  intro x
  cases f with
  | unary f => exact prompt_closeParen.bind fun _ => prompt_pure _
  | binary f =>
    apply prompt_comma.bind
    intro _
    apply hx.bind
    intro y
    exact prompt_closeParen.bind fun _ => prompt_pure _

theorem prompt_choice : Prompt (choice c (levels n)) := by
  apply prompt_openParen.bind
  intro _
  apply hx.bind
  intro x
  apply prompt_comma.bind
  intro _
  apply hx.bind
  intro y
  apply prompt_comma.bind
  intro _
  apply hx.bind
  intro z
  exact prompt_closeParen.bind fun _ => prompt_pure _

end

/-- Too deep a nesting is charged to the token that opens the level. -/
theorem promptAfter_nested {room : Nat} {g : Levels → Parser α}
    (hg : ∀ n, room = n + 1 → Prompt (g (levels n))) :
    PromptAfter (some q) (nested (below room) q.column g) := by
  cases room with
  | zero => exact promptAfter_fail
  | succ n => exact (hg n rfl).after

section
variable {room : Nat} (hexpr : ∀ n, room = n + 1 → Prompt (levels n).expression)
include hexpr

theorem promptAfter_identifier (name : String) :
    PromptAfter (some q) (identifier (below room) q.column name) := by
  simp only [identifier]
  split
  · exact (prompt_pure _).after
  · split
    · exact (prompt_pure _).after
    · split
      · exact promptAfter_nested fun n hn => prompt_choice (hexpr n hn)
      · split
        · next f _ => exact promptAfter_nested fun n hn => prompt_call (hexpr n hn) f
        · refine promptAfter_resolve (fun b => ?_) ⟨_, _, rfl⟩
          cases b <;> exact ⟨_, rfl⟩

theorem prompt_atom : Prompt (atom (below room)) := by
  refine prompt_next (fun q => ?_) (fun c => ⟨_, _, rfl⟩) fun names =>
    completes_token (t := .identifier "pi") (by simp) fun _ _ => rfl
  cases q.token with
  | literal text =>
    simp only
    split
    · exact (prompt_pure _).after
    · exact promptAfter_fail
  | leftParen => exact promptAfter_nested fun n hn => prompt_parenthesized (hexpr n hn)
  | identifier name => exact promptAfter_identifier hexpr name
  | _ => exact promptAfter_fail

theorem prompt_power (hunary : ∀ n, room = n + 1 → Prompt (levels n).unary) :
    Prompt (power (below room)) := by
  apply (prompt_atom hexpr).bind
  intro x
  apply prompt_operator? (prompt_pure x)
  intro op c
  have hn : PromptAfter (some ⟨.operator op, c⟩) (nested (below room) c (·.unary)) :=
    promptAfter_nested hunary
  exact hn.bind fun _ => prompt_pure _

end

theorem prompt_unary {room : Nat} (h : Prompt (power (below room))) :
    Prompt (unary (below room)) := by
  apply prompt_signs.bind
  intro run
  apply h.bind
  intro x
  split
  · exact prompt_pure _
  · exact prompt_pure _

theorem prompt_comparison {room : Nat} (h : Prompt (sum (below room))) :
    Prompt (comparison (below room)) := by
  apply h.bind
  intro x
  apply prompt_operator? (prompt_pure x)
  intro op c
  refine h.after.bind fun y => ?_
  exact prompt_operator? (prompt_pure _) fun _ _ => promptAfter_fail

/-- By induction on the room: what is nested is read with less of it. -/
theorem prompt_levels (room : Nat) :
    Prompt (levels room).expression ∧ Prompt (levels room).unary := by
  induction room using Nat.strongRecOn with
  | ind room ih =>
    have hexpr : ∀ n, room = n + 1 → Prompt (levels n).expression := by
      rintro n rfl
      exact (ih n (Nat.lt_succ_self n)).1
    have hunary : ∀ n, room = n + 1 → Prompt (levels n).unary := by
      rintro n rfl
      exact (ih n (Nat.lt_succ_self n)).2
    have hun := prompt_unary (prompt_power hexpr hunary)
    have hsum : Prompt (sum (below room)) := prompt_leftAssociative (prompt_leftAssociative hun)
    rw [levels_expression, levels_unary]
    exact ⟨prompt_leftAssociative (prompt_comparison hsum), hun⟩

end FormulaMachine.Parser
