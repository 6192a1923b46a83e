import FormulaMachine.Proofs.Grammar

/-! What each parser makes of the tokens in front of it. -/
namespace FormulaMachine.Parser

variable {α β : Type} {p : Parser α} {f : α → Parser β} {s r : Reading}

/-- A parser as a function to its result and the reading that is left. -/
def run (p : Parser α) (s : Reading) : Except Error α × Reading := ((p s).result, (p s).rest)

theorem length_le_of_run {x : Except Error α} (h : p.run s = (x, r)) :
    r.tokens.length ≤ s.tokens.length := by
  cases h
  exact (p s).length_le

@[simp] theorem run_pure (a : α) (s : Reading) : (pure a : Parser α).run s = (.ok a, s) := rfl

theorem ok_of_pure {a b : α} (h : (pure a : Parser α).run s = (.ok b, r)) : b = a ∧ r = s := by
  cases h
  exact ⟨rfl, rfl⟩

theorem run_bind (p : Parser α) (f : α → Parser β) (s : Reading) :
    (p >>= f).run s =
      match p.run s with
      | (.error e, r) => (.error e, r)
      | (.ok a, r) => (f a).run r := by
  simp only [run, bind]
  split <;> simp_all

theorem run_bind_ok {a : α} (h : p.run s = (.ok a, r)) : (p >>= f).run s = (f a).run r := by
  rw [run_bind, h]

theorem ok_of_bind {b : β} {t : Reading} (h : (p >>= f).run s = (.ok b, t)) :
    ∃ a r, p.run s = (.ok a, r) ∧ (f a).run r = (.ok b, t) := by
  rw [run_bind] at h
  split at h
  · cases h
  · next a r hp => exact ⟨a, r, hp, h⟩

@[simp] theorem run_fail (kind : ErrorKind) (column : Column) (detail : String) (s : Reading) :
    (fail kind column detail : Parser α).run s = (.error { kind, column, detail }, s) := rfl

@[simp] theorem run_next_cons (t : Placed) (ts : List Placed) (names : Names) (stop : Nat) :
    next.run ⟨t :: ts, names, stop⟩ = (.ok (some t.token, t.column), ⟨ts, names, stop⟩) := rfl

@[simp] theorem run_signs (s : Reading) :
    signs.run s = (.ok (s.tokens.takeWhile Placed.isSign),
      { s with tokens := s.tokens.dropWhile Placed.isSign }) := rfl

@[simp] theorem run_resolve (name : String) (s : Reading) :
    (resolve name).run s =
      (.ok (s.names.resolve name).1, { s with names := (s.names.resolve name).2 }) := rfl

/-- The operator of the given sort that comes next, if one does. -/
def upcoming (sort : Operator → Bool) (ts : List Placed) : Option Operator :=
  ts.head?.bind fun t => t.operator?.filter sort

section
variable {sort : Operator → Bool} {term : Parser Expr} {x : Expr} {op : Operator} {c : Column}
  {ts : List Placed} {names : Names} {stop : Nat}

theorem filter_operator (h : sort op) (c : Column) :
    (Placed.operator? ⟨.operator op, c⟩).filter sort = some op := by
  simp [Placed.operator?, h]

theorem eq_cons_of_upcoming (h : upcoming sort ts = some op) :
    sort op ∧ ∃ c us, ts = ⟨.operator op, c⟩ :: us := by
  obtain _ | ⟨⟨t, c⟩, us⟩ := ts
  · cases h
  · cases t <;> simp [upcoming, Placed.operator?, Option.filter] at h
    obtain ⟨hs, rfl⟩ := h
    exact ⟨hs, c, us, rfl⟩

theorem run_operator?_none (h : upcoming sort s.tokens = none) :
    (operator? sort).run s = (.ok none, s) := by
  obtain ⟨_ | ⟨t, ts⟩, names, stop⟩ := s
  · rfl
  · have h : t.operator?.filter sort = none := h
    simp [run, operator?, h]

theorem run_operator?_some (sort : Operator → Bool) (h : sort op) :
    (operator? sort).run ⟨⟨.operator op, c⟩ :: ts, names, stop⟩ =
      (.ok (some (op, c)), ⟨ts, names, stop⟩) := by
  have h := filter_operator h c
  simp [run, operator?, h]

theorem run_chain_none (h : upcoming sort s.tokens = none) :
    (chain sort term x).run s = (.ok x, s) := by
  unfold run
  rw [chain]
  split
  · rfl
  · next t ts hs =>
    have h : t.operator?.filter sort = none := by simpa [upcoming, hs] using h
    split
    · rfl
    · simp_all

theorem run_chain_some (h : sort op) :
    (chain sort term x).run ⟨⟨.operator op, c⟩ :: ts, names, stop⟩ =
      (term >>= fun y => chain sort term (.binary c op x y)).run ⟨ts, names, stop⟩ := by
  rw [run_bind]
  have h := filter_operator h c
  unfold run
  rw [chain]
  simp only
  split
  · simp_all
  · next op' h' =>
    obtain rfl : op' = op := by simp_all
    split <;> simp_all

end

@[simp] theorem run_openParen (c : Column) (ts : List Placed) (names : Names) (stop : Nat) :
    openParen.run ⟨⟨.leftParen, c⟩ :: ts, names, stop⟩ = (.ok (), ⟨ts, names, stop⟩) := rfl

@[simp] theorem run_comma (c : Column) (ts : List Placed) (names : Names) (stop : Nat) :
    comma.run ⟨⟨.comma, c⟩ :: ts, names, stop⟩ = (.ok (), ⟨ts, names, stop⟩) := rfl

@[simp] theorem run_closeParen (c : Column) (ts : List Placed) (names : Names) (stop : Nat) :
    closeParen.run ⟨⟨.rightParen, c⟩ :: ts, names, stop⟩ = (.ok (), ⟨ts, names, stop⟩) := rfl

theorem ok_openParen (h : openParen.run s = (.ok (), r)) :
    ∃ c, s = ⟨⟨.leftParen, c⟩ :: r.tokens, r.names, r.stop⟩ := by
  obtain ⟨_ | ⟨⟨t, c⟩, ts⟩, names, stop⟩ := s
  · cases h
  · cases t <;> cases h
    exact ⟨c, rfl⟩

theorem ok_comma (h : comma.run s = (.ok (), r)) :
    ∃ c, s = ⟨⟨.comma, c⟩ :: r.tokens, r.names, r.stop⟩ := by
  obtain ⟨_ | ⟨⟨t, c⟩, ts⟩, names, stop⟩ := s
  · cases h
  · cases t <;> cases h
    exact ⟨c, rfl⟩

theorem ok_closeParen (h : closeParen.run s = (.ok (), r)) :
    ∃ c, s = ⟨⟨.rightParen, c⟩ :: r.tokens, r.names, r.stop⟩ := by
  obtain ⟨_ | ⟨⟨t, c⟩, ts⟩, names, stop⟩ := s
  · cases h
  · cases t <;> cases h
    exact ⟨c, rfl⟩

theorem ok_finish (h : finish.run s = (.ok (), r)) : s.tokens = [] ∧ r = s := by
  obtain ⟨_ | ⟨⟨t, c⟩, ts⟩, names, stop⟩ := s
  · cases h
    exact ⟨rfl, rfl⟩
  · cases t <;> cases h

/-- The levels below the one that has `room`. -/
def below : Nat → Option Levels
  | 0 => none
  | room + 1 => some (levels room)

theorem levels_eq (room : Nat) : levels room = ⟨expression (below room), unary (below room)⟩ := by
  cases room <;> rfl

@[simp] theorem levels_expression (room : Nat) :
    (levels room).expression = expression (below room) := by
  rw [levels_eq]

@[simp] theorem levels_unary (room : Nat) : (levels room).unary = unary (below room) := by
  rw [levels_eq]

theorem ok_of_nested {room : Nat} {column : Column} {q : Levels → Parser α} {a : α}
    (h : (nested (below room) column q).run s = (.ok a, r)) :
    ∃ n, room = n + 1 ∧
      (q ⟨expression (below n), unary (below n)⟩).run s = (.ok a, r) := by
  cases room with
  | zero => cases h
  | succ n => exact ⟨n, rfl, levels_eq n ▸ h⟩

theorem negation?_eq (run : List Placed) : Placed.negation? run =
    if run.countP Placed.isMinus % 2 = 1 then (run.find? Placed.isMinus).map (·.column)
    else none := by
  simp [Placed.negation?, List.countP_eq_length_filter, List.head?_filter]

theorem not_mem_reserved {name : String} : name ∉ reserved ↔
    name ≠ "pi" ∧ name ≠ "e" ∧ name ≠ "if" ∧ Builtin.ofName? name = none := by
  simp [reserved, Builtin.ofName?, List.find?_eq_none]

/-- The parser of each rank. -/
def ranked (inner : Option Levels) : Rank → Parser Expr
  | .expression => expression inner
  | .comparison => comparison inner
  | .sum => sum inner
  | .product => leftAssociative Operator.isMultiplicative (unary inner)
  | .unary => unary inner
  | .power => power inner
  | .atom => atom inner

theorem parse_eq_run (s : Segment) (names : Names) :
    Expr.parse s names = ((whole.run (.ofText s.text s.offset names)).1,
      (whole.run (.ofText s.text s.offset names)).2.names) := rfl

end FormulaMachine.Parser
