import FormulaMachine.Proofs.Parsing.Layout
import FormulaMachine.Proofs.Parsing.Prompt

/-! An error of the parser stands where the text cannot be gone on with. -/
namespace FormulaMachine

/-- With the given names there is a segment that is accepted and begins with the tokens. -/
def Viable (names : Names) (ts : List Placed) : Prop :=
  ∃ s e names', Expr.parse s names = (.ok e, names') ∧
    ts.map (·.token) <+: s.tokens.map (·.token)

/-- Where a segment goes wrong: at the first token such that the tokens up to it are not viable, or
else at the end, behind all blanks. -/
inductive FirstFault (names : Names) (s : Segment) : Column → Prop
  | token {before after : List Placed} {p : Placed} :
    s.tokens = before ++ p :: after → (∀ ts, ts <+: before → Viable names ts) →
    ¬ Viable names (before ++ [p]) → FirstFault names s p.column
  | atEnd : (∀ ts, ts <+: s.tokens → Viable names ts) →
    FirstFault names s (.before (s.offset + s.text.length))

/-- The tokens derive an expression whose names are known. -/
def Accepted (names : Names) (ts : List Placed) : Prop :=
  ∃ x e names', Derives Parser.maxNesting .expression ts x ∧ Resolves names x e names'

variable {names names' : Names} {s : Segment} {ts us good : List Placed} {q : Placed} {e : Error}

theorem Viable.shorten (h : Viable names us) (ht : ts <+: us) : Viable names ts := by
  obtain ⟨s, e, names', hp, hs⟩ := h
  exact ⟨s, e, names', hp, (ht.map _).trans hs⟩

theorem Accepted.relabel (h : Accepted names ts) (hu : Placed.Alike us ts) :
    Accepted names us := by
  obtain ⟨x, e, names', hx, hr⟩ := h
  obtain ⟨y, hy, hb⟩ := hx.relabel hu
  obtain ⟨e', hr', -⟩ := hr.relabel hb
  exact ⟨y, e', names', hy, hr'⟩

theorem accepted_of_parse {x : Expr} (h : Expr.parse s names = (.ok x, names')) :
    Accepted names s.tokens := by
  obtain ⟨y, hy, hr⟩ := Expr.derives_of_parse h
  exact ⟨y, x, names', hy, hr⟩

/-- Legible tokens can be written down as a segment. -/
theorem viable_of_accepted (h : Accepted names (ts ++ us)) (hl : ∀ q ∈ ts ++ us, q.token.Legible) :
    Viable names ts := by
  have hw : Placed.Alike (Segment.tokens ⟨.ofList (Token.write ((ts ++ us).map (·.token))), 0⟩)
      (ts ++ us) :=
    Segment.tokens_write (fun t ht => by
      obtain ⟨q, hq, rfl⟩ := List.mem_map.mp ht
      exact hl q hq) 0
  obtain ⟨x, e, names', hx, hr⟩ := h.relabel hw
  refine ⟨_, e, names', Expr.parse_of_derives hx hr, ?_⟩
  rw [hw, List.map_append]
  exact List.prefix_append _ _

namespace Parser

theorem accepted_of_run {x : Expr} {stop stop' : Nat}
    (h : (levels maxNesting).expression.run ⟨ts, names, stop⟩ = (.ok x, ⟨[], names', stop'⟩)) :
    Accepted names ts := by
  rw [levels_expression] at h
  obtain ⟨xs, y, rfl, -, hy, hr⟩ := (sound_expression _).1 h
  rw [List.append_nil]
  exact ⟨y, x, names', hy, hr⟩

theorem run_of_accepted (h : Accepted names ts) (stop : Nat) :
    ∃ x names', (levels maxNesting).expression.run ⟨ts, names, stop⟩ =
      (.ok x, ⟨[], names', stop⟩) := by
  obtain ⟨y, x, names', hy, hr⟩ := h
  rw [levels_expression]
  exact ⟨x, names', run_of_derives_nil hy hr stop⟩

theorem viable_of_completes (h : Completes (levels maxNesting).expression names ts)
    (hl : ∀ q ∈ ts, q.token.Legible) : Viable names ts := by
  obtain ⟨more, x, names', hm, h⟩ := h
  obtain ⟨-, hr⟩ := h [] 0 nofun
  rw [List.append_nil] at hr
  exact viable_of_accepted (accepted_of_run hr) (List.forall_mem_append.mpr ⟨hl, hm⟩)

theorem not_viable (h : ∀ us, ¬ Accepted names (good ++ q :: us)) :
    ¬ Viable names (good ++ [q]) := by
  rintro ⟨s, e, names', hp, hs⟩
  have hu : Placed.Alike (good ++ q :: s.tokens.drop (good.length + 1)) s.tokens := by
    have ht := List.prefix_iff_eq_append.mp hs
    simpa [Placed.Alike, List.map_drop] using ht
  exact h _ ((accepted_of_parse hp).relabel hu)

theorem error_finish {r : Reading} {t : Reading} (h : finish.run r = (.error e, t)) :
    ∃ q ts, r.tokens = q :: ts ∧ e.column = q.column := by
  obtain ⟨_ | ⟨⟨t, c⟩, ts⟩, names, stop⟩ := r
  · cases h
  · refine ⟨_, _, rfl, ?_⟩
    cases t <;> cases h <;> rfl

/-- What an expression fails at is a fault of the segment that holds it. -/
theorem firstFault_of_fails
    (h : Fails none (levels maxNesting).expression (.ofText s.text s.offset names) e) :
    FirstFault names s e.column := by
  have hl : ∀ {ts : List Placed}, ts <+: s.tokens → ∀ q ∈ ts, q.token.Legible :=
    fun ht q hq => Segment.legible_of_mem (ht.subset hq)
  cases h with
  | @within good rest q ht hcol hg he =>
    have ht : s.tokens = good ++ q :: rest := ht
    have hv := viable_of_completes hg (hl (ht ▸ List.prefix_append _ _))
    rw [hcol]
    refine .token ht (fun ts hts => hv.shorten hts) (not_viable fun us hu => ?_)
    obtain ⟨x, names', hr⟩ := run_of_accepted hu 0
    have he : (Except.ok x : Except Error Expr) = .error e := by
      rw [← he us 0]
      exact (congrArg Prod.fst hr).symm
    cases he
  | outright hq => cases hq
  | atEnd hcol hg =>
    rw [hcol]
    exact .atEnd fun ts hts => (viable_of_completes hg (hl List.prefix_rfl)).shorten hts

/-- What stands behind an expression is a fault, since no reading of the text goes further. -/
theorem firstFault_of_takes {x : Expr} {r : Reading} {rest : List Placed}
    (h : Takes (levels maxNesting).expression (.ofText s.text s.offset names) ts x r)
    (hr : r.tokens = q :: rest) : FirstFault names s q.column := by
  have ht : s.tokens = ts ++ q :: rest := hr ▸ h.tokens_eq
  have hv : Viable names ts := viable_of_completes h.completes_taken fun p hp =>
    Segment.legible_of_mem (ht ▸ List.mem_append_left _ hp)
  refine .token ht (fun us hus => hv.shorten hus) (not_viable fun us hu => ?_)
  obtain ⟨y, names', hy⟩ := run_of_accepted hu 0
  have hx : (levels maxNesting).expression.run ⟨ts ++ q :: us, names, 0⟩ =
      (.ok x, ⟨q :: us, r.names, 0⟩) := h.run_eq (q :: us) 0 (.inl (by rw [hr]; rfl))
  rw [hx] at hy
  cases hy

end Parser

/-- An error of the parser stands at the first fault of the segment. -/
theorem Expr.firstFault_of_parse (h : parse s names = (.error e, names')) :
    FirstFault names s e.column := by
  have hw : (Parser.whole.run (.ofText s.text s.offset names)).1 = .error e := by
    rw [Parser.parse_eq_run] at h
    exact (Prod.mk.inj h).1
  generalize hx : (Parser.levels Parser.maxNesting).expression.run
    (.ofText s.text s.offset names) = o
  have hp := (Parser.prompt_levels Parser.maxNesting).1.after_none hx
  obtain ⟨e' | x, r⟩ := o
  · have he : (Parser.whole.run (.ofText s.text s.offset names)).1 = .error e' :=
      Parser.run_bind_error (congrArg Prod.fst hx)
    obtain rfl : e' = e := Except.error.inj (he.symm.trans hw)
    exact Parser.firstFault_of_fails hp
  · obtain ⟨ts, ht⟩ := hp
    rw [Parser.whole, Parser.run_bind_ok hx, Parser.run_bind] at hw
    split at hw
    · next e' t hf =>
      cases hw
      obtain ⟨q, rest, hr, hc⟩ := Parser.error_finish hf
      rw [hc]
      exact Parser.firstFault_of_takes ht hr
    · cases hw

/-- The sum lacks an operand, and the parenthesis that shows it is blamed. -/
theorem Expr.firstFault_of_parse_operand : ∃ e names',
    parse ⟨"2*(1 + )", 3⟩ {} = (.error e, names') ∧ e.column = ⟨10, 11⟩ ∧
      FirstFault {} ⟨"2*(1 + )", 3⟩ e.column := by
  have h : (match (parse ⟨"2*(1 + )", 3⟩ {}).1 with
      | .error e => some e
      | .ok _ => none) = some { kind := .expressionExpected, column := ⟨10, 11⟩ } := by
    decide +kernel
  generalize hp : parse ⟨"2*(1 + )", 3⟩ {} = o at h
  obtain ⟨e | x, names'⟩ := o
  · cases h
    exact ⟨_, _, rfl, rfl, firstFault_of_parse hp⟩
  · cases h

end FormulaMachine
