import FormulaMachine.Proofs.Parsing.Steps

/-! Whatever is accepted is derived by the grammar. -/
namespace FormulaMachine.Parser

/-- From `s` to `r` the tokens derive a phrase of the given rank, and its names resolve. -/
def Reads (room : Nat) (k : Rank) (s : Reading) (e : Expr) (r : Reading) : Prop :=
  ∃ xs x, s.tokens = xs ++ r.tokens ∧ r.stop = s.stop ∧ Derives room k xs x ∧
    Resolves s.names x e r.names

def Sound (room : Nat) (k : Rank) (p : Parser Expr) : Prop :=
  ∀ ⦃s e r⦄, p.run s = (.ok e, r) → Reads room k s e r

variable {room : Nat} {k j : Rank} {s r : Reading} {e : Expr} {term : Parser Expr}

theorem Reads.lone (hk : k.parts? = some j) (h : Reads room j s e r) : Reads room k s e r := by
  obtain ⟨xs, x, ht, hs, hx, hr⟩ := h
  exact ⟨xs, x, ht, hs, .lone hk hx, hr⟩

theorem Reads.join {op : Operator} {c : Column} {s m r : Reading} {a b : Expr} {ts : List Placed}
    (hk : k.parts? = some j) (ho : k.joins op) (ha : Reads room k s a m)
    (hm : m.tokens = ⟨.operator op, c⟩ :: ts) (hb : Reads room j { m with tokens := ts } b r) :
    Reads room k s (.binary c op a b) r := by
  obtain ⟨xs, x, ht, hs, hx, hr⟩ := ha
  obtain ⟨ys, y, ht', hs', hy, hr'⟩ := hb
  refine ⟨_, _, ?_, hs'.trans hs, .join (c := c) hk ho hx hy, .binary hr hr'⟩
  rw [ht, hm, show ts = ys ++ r.tokens from ht', List.append_assoc, List.cons_append]

theorem sound_chain (hk : k.parts? = some j) (hterm : Sound room j term) {s₀ : Reading} {x : Expr}
    (h₀ : Reads room k s₀ x s) (h : (chain k.joins term x).run s = (.ok e, r)) :
    Reads room k s₀ e r := by
  generalize hn : s.tokens.length = n
  induction n using Nat.strongRecOn generalizing s x with
  | ind n ih =>
    cases hu : upcoming k.joins s.tokens with
    | none =>
      rw [run_chain_none hu] at h
      cases h
      exact h₀
    | some op =>
      obtain ⟨ho, c, ts, ht⟩ := eq_cons_of_upcoming hu
      obtain ⟨tokens, names, stop⟩ := s
      subst ht
      rw [run_chain_some ho] at h
      obtain ⟨y, m, hy, h⟩ := ok_of_bind h
      have hl : m.tokens.length ≤ ts.length := length_le_of_run hy
      simp only [List.length_cons] at hn
      exact ih m.tokens.length (by omega) (h₀.join hk ho rfl (hterm hy)) h rfl

theorem sound_leftAssociative (hk : k.parts? = some j) (hterm : Sound room j term) :
    Sound room k (leftAssociative k.joins term) := by
  intro s e r h
  obtain ⟨x, m, hx, h⟩ := ok_of_bind h
  exact sound_chain hk hterm ((hterm hx).lone hk) h

theorem sound_comparison (hsum : Sound room .sum (sum (below room))) :
    Sound room .comparison (comparison (below room)) := by
  intro s e r h
  obtain ⟨a, m, ha, h⟩ := ok_of_bind h
  have ha := hsum ha
  cases hu : upcoming Operator.isRelational m.tokens with
  | none =>
    rw [run_bind_ok (run_operator?_none hu)] at h
    obtain ⟨rfl, rfl⟩ := ok_of_pure h
    exact ha.lone rfl
  | some op =>
    obtain ⟨ho, c, ts, ht⟩ := eq_cons_of_upcoming hu
    obtain ⟨tokens, names, stop⟩ := m
    subst ht
    rw [run_bind_ok (run_operator?_some _ ho)] at h
    obtain ⟨b, n, hb, h⟩ := ok_of_bind h
    cases hu' : upcoming Operator.isRelational n.tokens with
    | none =>
      rw [run_bind_ok (run_operator?_none hu')] at h
      obtain ⟨rfl, rfl⟩ := ok_of_pure h
      obtain ⟨xs, x, ht, hs, hx, hr⟩ := ha
      obtain ⟨ys, y, ht', hs', hy, hr'⟩ := hsum hb
      refine ⟨_, _, ?_, hs'.trans hs, .compare (c := c) ho hx hy, .binary hr hr'⟩
      simp_all
    | some op' =>
      obtain ⟨ho', c', ts', ht'⟩ := eq_cons_of_upcoming hu'
      obtain ⟨tokens', names', stop'⟩ := n
      subst ht'
      rw [run_bind_ok (run_operator?_some _ ho')] at h
      cases h

theorem sound_unary (hpower : Sound room .power (power (below room))) :
    Sound room .unary (unary (below room)) := by
  intro s e r h
  rw [unary, run_bind_ok (run_signs s)] at h
  obtain ⟨a, m, ha, h⟩ := ok_of_bind h
  obtain ⟨xs, x, ht, hs, hx, hr⟩ := hpower ha
  have ht : s.tokens = s.tokens.takeWhile Placed.isSign ++ xs ++ m.tokens := by
    rw [List.append_assoc, ← ht, List.takeWhile_append_dropWhile]
  have hsigns : ∀ p ∈ s.tokens.takeWhile Placed.isSign, p.isSign := by
    intro p hp
    exact List.all_eq_true.mp (List.all_takeWhile) p hp
  rw [negation?_eq] at h
  by_cases hodd : (s.tokens.takeWhile Placed.isSign).countP Placed.isMinus % 2 = 1
  · have hpos : 0 < (s.tokens.takeWhile Placed.isSign).countP Placed.isMinus := by omega
    obtain ⟨minus, hm⟩ := Option.isSome_iff_exists.mp
      (List.find?_isSome.mpr (List.countP_pos_iff.mp hpos))
    simp only [hodd, if_true, hm, Option.map_some] at h
    obtain ⟨rfl, rfl⟩ := ok_of_pure h
    exact ⟨_, _, ht, hs, .negated hsigns hodd hm hx, .negation hr⟩
  · simp only [hodd, if_false] at h
    obtain ⟨rfl, rfl⟩ := ok_of_pure h
    exact ⟨_, _, ht, hs, .signed hsigns (by omega) hx, hr⟩

theorem sound_power (hatom : Sound room .atom (atom (below room)))
    (hunary : ∀ n, room = n + 1 → Sound n .unary (unary (below n))) :
    Sound room .power (power (below room)) := by
  intro s e r h
  obtain ⟨a, m, ha, h⟩ := ok_of_bind h
  have ha := hatom ha
  cases hu : upcoming (· == .power) m.tokens with
  | none =>
    rw [run_bind_ok (run_operator?_none hu)] at h
    obtain ⟨rfl, rfl⟩ := ok_of_pure h
    exact ha.lone rfl
  | some op =>
    obtain ⟨ho, c, ts, ht⟩ := eq_cons_of_upcoming hu
    obtain rfl : op = .power := by simpa using ho
    obtain ⟨tokens, names, stop⟩ := m
    subst ht
    rw [run_bind_ok (run_operator?_some (· == .power) ho)] at h
    obtain ⟨b, n, hb, h⟩ := ok_of_bind h
    obtain ⟨rfl, rfl⟩ := ok_of_pure h
    obtain ⟨room, rfl, hb'⟩ := ok_of_nested hb
    obtain ⟨xs, x, ht, hs, hx, hr⟩ := ha
    obtain ⟨ys, y, ht', hs', hy, hr'⟩ := hunary room rfl hb'
    refine ⟨_, _, ?_, hs'.trans hs, .exponent (c := c) hx hy, .binary hr hr'⟩
    simp_all

theorem name_eq_of_ofName? {name : String} {f : Builtin} (h : Builtin.ofName? name = some f) :
    f.name = name := by
  simpa using List.find?_some h

section
variable {n : Nat} {c : Column} (hexpr : Sound n .expression (expression (below n)))
include hexpr

theorem sound_parenthesized
    (h : (parenthesized ⟨expression (below n), unary (below n)⟩).run s = (.ok e, r)) (l : Column) :
    Reads (n + 1) .atom { s with tokens := ⟨.leftParen, l⟩ :: s.tokens } e r := by
  obtain ⟨a, m, ha, h⟩ := ok_of_bind h
  obtain ⟨⟨⟩, m', hc, h⟩ := ok_of_bind h
  obtain ⟨rfl, rfl⟩ := ok_of_pure h
  obtain ⟨q, rfl⟩ := ok_closeParen hc
  obtain ⟨xs, x, ht, hs, hx, hr⟩ := hexpr ha
  refine ⟨_, _, ?_, hs, .parenthesized (l := l) (r := q) hx, hr⟩
  simp [ht]

theorem sound_choice
    (h : (choice c ⟨expression (below n), unary (below n)⟩).run s = (.ok e, r)) :
    Reads (n + 1) .atom { s with tokens := ⟨.identifier "if", c⟩ :: s.tokens } e r := by
  obtain ⟨⟨⟩, m₁, ho, h⟩ := ok_of_bind h
  obtain ⟨a, m₂, ha, h⟩ := ok_of_bind h
  obtain ⟨⟨⟩, m₃, hm, h⟩ := ok_of_bind h
  obtain ⟨b, m₄, hb, h⟩ := ok_of_bind h
  obtain ⟨⟨⟩, m₅, hm', h⟩ := ok_of_bind h
  obtain ⟨d, m₆, hd, h⟩ := ok_of_bind h
  obtain ⟨⟨⟩, m₇, hc, h⟩ := ok_of_bind h
  obtain ⟨rfl, rfl⟩ := ok_of_pure h
  obtain ⟨l, rfl⟩ := ok_openParen ho
  obtain ⟨m, rfl⟩ := ok_comma hm
  obtain ⟨m', rfl⟩ := ok_comma hm'
  obtain ⟨q, rfl⟩ := ok_closeParen hc
  obtain ⟨xs, x, ht, hs, hx, hr⟩ := hexpr ha
  obtain ⟨ys, y, ht', hs', hy, hr'⟩ := hexpr hb
  obtain ⟨zs, z, ht'', hs'', hz, hr''⟩ := hexpr hd
  have hd := Derives.choice (c := c) (l := l) (m := m) (n := m') (r := q) hx hy hz
  refine ⟨_, _, ?_, (hs''.trans hs').trans hs, hd, .choice hr hr' hr''⟩
  simp_all

theorem sound_call {f : UnaryFunction}
    (h : (call c (.unary f) ⟨expression (below n), unary (below n)⟩).run s = (.ok e, r)) :
    Reads (n + 1) .atom { s with tokens := ⟨.identifier f.name, c⟩ :: s.tokens } e r := by
  obtain ⟨⟨⟩, m₁, ho, h⟩ := ok_of_bind h
  obtain ⟨a, m₂, ha, h⟩ := ok_of_bind h
  obtain ⟨⟨⟩, m₃, hc, h⟩ := ok_of_bind h
  obtain ⟨rfl, rfl⟩ := ok_of_pure h
  obtain ⟨l, rfl⟩ := ok_openParen ho
  obtain ⟨q, rfl⟩ := ok_closeParen hc
  obtain ⟨xs, x, ht, hs, hx, hr⟩ := hexpr ha
  refine ⟨_, _, ?_, hs, .call (c := c) (l := l) (r := q) hx, .call hr⟩
  simp_all

theorem sound_call₂ {f : BinaryFunction}
    (h : (call c (.binary f) ⟨expression (below n), unary (below n)⟩).run s = (.ok e, r)) :
    Reads (n + 1) .atom { s with tokens := ⟨.identifier f.name, c⟩ :: s.tokens } e r := by
  obtain ⟨⟨⟩, m₁, ho, h⟩ := ok_of_bind h
  obtain ⟨a, m₂, ha, h⟩ := ok_of_bind h
  obtain ⟨⟨⟩, m₃, hm, h⟩ := ok_of_bind h
  obtain ⟨b, m₄, hb, h⟩ := ok_of_bind h
  obtain ⟨⟨⟩, m₅, hc, h⟩ := ok_of_bind h
  obtain ⟨rfl, rfl⟩ := ok_of_pure h
  obtain ⟨l, rfl⟩ := ok_openParen ho
  obtain ⟨m, rfl⟩ := ok_comma hm
  obtain ⟨q, rfl⟩ := ok_closeParen hc
  obtain ⟨xs, x, ht, hs, hx, hr⟩ := hexpr ha
  obtain ⟨ys, y, ht', hs', hy, hr'⟩ := hexpr hb
  refine ⟨_, _, ?_, hs'.trans hs, .call₂ (c := c) (l := l) (m := m) (r := q) hx hy, .call₂ hr hr'⟩
  simp_all

end

theorem sound_identifier {name : String} {c : Column}
    (hexpr : ∀ n, room = n + 1 → Sound n .expression (expression (below n)))
    (h : (identifier (below room) c name).run s = (.ok e, r)) :
    Reads room .atom { s with tokens := ⟨.identifier name, c⟩ :: s.tokens } e r := by
  simp only [identifier] at h
  split at h
  · next hn =>
    subst hn
    obtain ⟨rfl, rfl⟩ := ok_of_pure h
    exact ⟨_, _, rfl, rfl, .pi, .pi⟩
  split at h
  · next hn =>
    subst hn
    obtain ⟨rfl, rfl⟩ := ok_of_pure h
    exact ⟨_, _, rfl, rfl, .euler, .euler⟩
  split at h
  · next hn =>
    subst hn
    obtain ⟨n, rfl, h'⟩ := ok_of_nested h
    exact sound_choice (hexpr n rfl) h'
  next hpi he hif =>
  split at h
  · next f hf =>
    obtain rfl := name_eq_of_ofName? hf
    obtain ⟨n, rfl, h'⟩ := ok_of_nested h
    cases f with
    | unary f => exact sound_call (hexpr n rfl) h'
    | binary f => exact sound_call₂ (hexpr n rfl) h'
  · next hf =>
    rw [run_bind_ok (run_resolve name s)] at h
    have hname := not_mem_reserved.mpr ⟨hpi, he, hif, hf⟩
    cases hb : (s.names.resolve name).1 with
    | none => rw [hb] at h; cases h
    | some b =>
      rw [hb] at h
      have hres : Resolves s.names (.name c name) (.operand c b.operand)
          (s.names.resolve name).2 := .name (by rw [← hb])
      cases b with
      | var index =>
        obtain ⟨rfl, rfl⟩ := ok_of_pure h
        exact ⟨_, _, rfl, rfl, .name hname, hres⟩
      | ref index =>
        obtain ⟨rfl, rfl⟩ := ok_of_pure h
        exact ⟨_, _, rfl, rfl, .name hname, hres⟩

theorem sound_atom (hexpr : ∀ n, room = n + 1 → Sound n .expression (expression (below n))) :
    Sound room .atom (atom (below room)) := by
  intro s e r h
  obtain ⟨_ | ⟨⟨t, c⟩, ts⟩, names, stop⟩ := s
  · cases h
  rw [atom, run_bind_ok (run_next_cons _ ts names stop)] at h
  cases t with
  | literal text =>
    simp only at h
    split at h
    · next value hv =>
      obtain ⟨rfl, rfl⟩ := ok_of_pure h
      exact ⟨_, _, rfl, rfl, .literal hv, .literal⟩
    · cases h
  | leftParen =>
    obtain ⟨n, rfl, h'⟩ := ok_of_nested h
    exact sound_parenthesized (hexpr n rfl) h' c
  | identifier name => exact sound_identifier hexpr h
  | operator | unknown | rightParen | comma | blank => cases h

/-- By induction on the room: what is nested is read with less of it. -/
theorem sound_expression (room : Nat) : Sound room .expression (expression (below room)) ∧
    Sound room .unary (unary (below room)) := by
  induction room using Nat.strongRecOn with
  | ind room ih =>
    have hexpr : ∀ n, room = n + 1 → Sound n .expression (expression (below n)) := by
      rintro n rfl
      exact (ih n (Nat.lt_succ_self n)).1
    have hunary : ∀ n, room = n + 1 → Sound n .unary (unary (below n)) := by
      rintro n rfl
      exact (ih n (Nat.lt_succ_self n)).2
    have hun := sound_unary (sound_power (sound_atom hexpr) hunary)
    have hsum := sound_leftAssociative (k := .sum) rfl
      (sound_leftAssociative (k := .product) rfl hun)
    exact ⟨sound_leftAssociative (k := .expression) rfl (sound_comparison hsum), hun⟩

end FormulaMachine.Parser
