import FormulaMachine.Proofs.Code
import FormulaMachine.Proofs.Lexing.Words
import FormulaMachine.Proofs.Parsing

/-!
How deep an expression is. Nesting is bounded and adds a few levels each time, but an operator that
is joined to a chain adds a level too, and chains are as long as their text.
-/
namespace FormulaMachine

namespace Expr

def depth : Expr → Nat
  | operand _ _ => 1
  | call _ _ x | negation _ x => x.depth + 1
  | call₂ _ _ x y | binary _ _ x y => max x.depth y.depth + 1
  | choice _ condition yes no => max condition.depth (max yes.depth no.depth) + 1

/-- All parts of an expression, each after its own parts, by a walk that goes no deeper than
`room`. -/
def walk? : (room : Nat) → Expr → Option (List Expr)
  | 0, _ => none
  | room + 1, e =>
    match e with
    | operand _ _ => some [e]
    | call _ _ x | negation _ x => do return (← x.walk? room) ++ [e]
    | call₂ _ _ x y | binary _ _ x y => do return (← x.walk? room) ++ (← y.walk? room) ++ [e]
    | choice _ condition yes no => do
      return (← condition.walk? room) ++ (← yes.walk? room) ++ (← no.walk? room) ++ [e]

/-- How many operators of a sort are joined, from left to right, at the top of an expression. -/
def joined (sort : Operator → Bool) : Expr → Nat
  | binary _ op x _ => if sort op then x.joined sort + 1 else 0
  | _ => 0

/-- Where no operator is of the sort nothing is joined. -/
theorem joined_never (e : Expr) : e.joined (fun _ => false) = 0 := by
  cases e <;> rfl

/-- No more than `n` operators of one rank are joined anywhere in the expression. -/
def ChainsWithin (n : Nat) (e : Expr) : Prop :=
  ∀ x ∈ e.postorder, ∀ k : Rank, x.joined k.joins ≤ n

/-- Only three ranks have operators to join. -/
instance (n : Nat) : DecidablePred (ChainsWithin n) := fun e =>
  decidable_of_iff
    (∀ x ∈ e.postorder, ∀ k ∈ [Rank.expression, .sum, .product], x.joined k.joins ≤ n) <| by
  refine forall₂_congr fun x _ => ⟨fun h k => ?_, fun h k _ => h k⟩
  cases k with
  | expression | sum | product => exact h _ (by decide)
  | comparison | unary | power | atom => cases x <;> exact Nat.zero_le n

variable {n : Nat} {c : Column} {e x y z : Expr}

/-- The depth is the room that a walk needs. -/
theorem walk?_eq (room : Nat) (e : Expr) :
    e.walk? room = if e.depth ≤ room then some e.postorder else none := by
  induction room generalizing e with
  | zero => cases e <;> rfl
  | succ room ih =>
    cases e with
    | operand => simp [walk?, depth, postorder]
    | call c f x | negation c x =>
      simp only [walk?, ih, depth, postorder, Nat.succ_le_succ_iff]
      split <;> rfl
    | call₂ c f x y | binary c op x y =>
      simp only [walk?, ih, depth, postorder, Nat.succ_le_succ_iff, Nat.max_le]
      by_cases hx : x.depth ≤ room <;> by_cases hy : y.depth ≤ room <;> simp [hx, hy]
    | choice c x y z =>
      simp only [walk?, ih, depth, postorder, Nat.succ_le_succ_iff, Nat.max_le]
      by_cases hx : x.depth ≤ room <;> by_cases hy : y.depth ≤ room <;>
        by_cases hz : z.depth ≤ room <;> simp [hx, hy, hz]

theorem mem_postorder_self (e : Expr) : e ∈ e.postorder := by
  cases e <;> simp [postorder]

theorem ChainsWithin.joined_le (h : e.ChainsWithin n) (k : Rank) : e.joined k.joins ≤ n :=
  h e e.mem_postorder_self k

theorem ChainsWithin.of_call {f : UnaryFunction} (h : (call c f x).ChainsWithin n) :
    x.ChainsWithin n :=
  fun a ha => h a (by simp [postorder, ha])

theorem ChainsWithin.of_negation (h : (negation c x).ChainsWithin n) : x.ChainsWithin n :=
  fun a ha => h a (by simp [postorder, ha])

theorem ChainsWithin.of_call₂ {f : BinaryFunction} (h : (call₂ c f x y).ChainsWithin n) :
    x.ChainsWithin n ∧ y.ChainsWithin n :=
  ⟨fun a ha => h a (by simp [postorder, ha]), fun a ha => h a (by simp [postorder, ha])⟩

theorem ChainsWithin.of_binary {op : Operator} (h : (binary c op x y).ChainsWithin n) :
    x.ChainsWithin n ∧ y.ChainsWithin n :=
  ⟨fun a ha => h a (by simp [postorder, ha]), fun a ha => h a (by simp [postorder, ha])⟩

theorem ChainsWithin.of_choice (h : (choice c x y z).ChainsWithin n) :
    x.ChainsWithin n ∧ y.ChainsWithin n ∧ z.ChainsWithin n :=
  ⟨fun a ha => h a (by simp [postorder, ha]), fun a ha => h a (by simp [postorder, ha]),
    fun a ha => h a (by simp [postorder, ha])⟩

end Expr

/-- How deep an expression of a rank may be where nothing nests, without its own chain, if chains
have up to `n` operators. -/
def Rank.depth (n : Nat) : Rank → Nat
  | .expression | .comparison => 2 * n + 4
  | .sum => n + 3
  | .product | .unary => 3
  | .power => 2
  | .atom => 1

/-- A lone part, with its own chain, is no deeper than a whole. -/
theorem Rank.depth_parts {j k : Rank} (h : k.parts? = some j) (n : Nat) :
    j.depth n + (if j = .sum ∨ j = .product then n else 0) ≤ k.depth n := by
  cases k <;> cases h <;> simp [depth] <;> omega

section
variable {room n : Nat} {j k : Rank} {ts : List Placed} {x : Phrase} {e : Expr}
  {names names' : Names}

theorem Expr.ChainsWithin.joined_le_of_parts (h : e.ChainsWithin n) (hk : k.parts? = some j) :
    e.joined j.joins ≤ if j = .sum ∨ j = .product then n else 0 := by
  have hle := h.joined_le j
  cases k <;> cases hk
  case comparison | sum => exact hle
  all_goals cases e <;> exact Nat.le_refl 0

/-- A whole expression, with its chain, takes one level of nesting. -/
theorem Expr.ChainsWithin.depth_le {room : Nat} (h : e.ChainsWithin n)
    (hle : e.depth ≤
      (3 * n + 4) * room + Rank.expression.depth n + e.joined Rank.expression.joins) :
    e.depth ≤ (3 * n + 4) * (room + 1) := by
  have hchain := h.joined_le .expression
  simp only [Rank.depth, Nat.mul_succ] at hle ⊢
  omega

/-- The induction is on the derivation. The chain that is going on is counted apart, since each of
its operators adds a level to what has been joined before. -/
theorem Derives.depth_le (h : Derives room k ts x) (hr : Resolves names x e names')
    (hc : e.ChainsWithin n) :
    e.depth ≤ (3 * n + 4) * room + k.depth n + e.joined k.joins := by
  induction h generalizing names names' e with
  | lone hj _ ih =>
    have hle := ih hr hc
    have hchain := hc.joined_le_of_parts hj
    have hparts := Rank.depth_parts hj n
    omega
  | join hj ho _ _ ihx ihy =>
    cases hr with
    | binary hra hrb =>
      obtain ⟨ha, hb⟩ := hc.of_binary
      have hx := ihx hra ha
      have hy := ihy hrb hb
      have hchain := hb.joined_le_of_parts hj
      have hparts := Rank.depth_parts hj n
      simp only [Expr.depth, Expr.joined, ho, if_true]
      omega
  | compare _ _ _ ihx ihy =>
    cases hr with
    | binary hra hrb =>
      obtain ⟨ha, hb⟩ := hc.of_binary
      have hx := ihx hra ha
      have hy := ihy hrb hb
      have hchainx := ha.joined_le .sum
      have hchainy := hb.joined_le .sum
      simp only [Expr.depth, Rank.depth] at *
      omega
  | signed _ _ _ ih =>
    have hle := ih hr hc
    simp only [Rank.depth, Rank.joins, Expr.joined_never] at hle ⊢
    omega
  | negated _ _ _ _ ih =>
    cases hr with
    | negation hra =>
      have hle := ih hra hc.of_negation
      simp only [Expr.depth, Rank.depth, Rank.joins, Expr.joined_never] at hle ⊢
      omega
  | exponent _ _ ihx ihy =>
    cases hr with
    | binary hra hrb =>
      obtain ⟨ha, hb⟩ := hc.of_binary
      have hx := ihx hra ha
      have hy := ihy hrb hb
      simp only [Expr.depth, Rank.depth, Rank.joins, Expr.joined_never, Nat.mul_succ] at hx hy ⊢
      omega
  | literal | pi | euler | name =>
    cases hr
    simp only [Expr.depth, Rank.depth]
    omega
  | parenthesized _ ih =>
    have hle := hc.depth_le (ih hr hc)
    simp only [Rank.depth]
    omega
  | call _ ih =>
    cases hr with
    | call hra =>
      have ha := hc.of_call
      have hle := ha.depth_le (ih hra ha)
      simp only [Expr.depth, Rank.depth]
      omega
  | call₂ _ _ ihx ihy =>
    cases hr with
    | call₂ hra hrb =>
      obtain ⟨ha, hb⟩ := hc.of_call₂
      have hx := ha.depth_le (ihx hra ha)
      have hy := hb.depth_le (ihy hrb hb)
      simp only [Expr.depth, Rank.depth]
      omega
  | choice _ _ _ ihx ihy ihz =>
    cases hr with
    | choice hra hrb hrd =>
      obtain ⟨ha, hb, hd⟩ := hc.of_choice
      have hx := ha.depth_le (ihx hra ha)
      have hy := hb.depth_le (ihy hrb hb)
      have hz := hd.depth_le (ihz hrd hd)
      simp only [Expr.depth, Rank.depth]
      omega

end

namespace Expr

variable {s : Segment} {names names' : Names} {e : Expr}

/-- An expression that has been read is only as deep as its longest chain makes it, whatever the
length of its text, and a walk with so much room gets through. -/
theorem depth_of_parse (h : parse s names = (.ok e, names')) {n : Nat} (hc : e.ChainsWithin n) :
    e.depth ≤ (3 * n + 4) * (Parser.maxNesting + 1) ∧
      e.walk? ((3 * n + 4) * (Parser.maxNesting + 1)) = some e.postorder := by
  obtain ⟨x, hx, hr⟩ := derives_of_parse h
  have hle := hc.depth_le (hx.depth_le hr hc)
  exact ⟨hle, by rw [walk?_eq, if_pos hle]⟩

/-- A chain of one operator at each of three ranks, with nesting between them. -/
theorem depth_of_parse_mixed : ∃ e names', parse ⟨"2*(x-3)-x*4 < 5^-x", 0⟩ { vars := ["x"] } =
    (.ok e, names') ∧ e.ChainsWithin 1 ∧ e.depth ≤ (3 * 1 + 4) * (Parser.maxNesting + 1) ∧
      e.walk? ((3 * 1 + 4) * (Parser.maxNesting + 1)) = some e.postorder := by
  have hchains : (parse ⟨"2*(x-3)-x*4 < 5^-x", 0⟩ { vars := ["x"] }).1.toOption.map
      (fun e => decide (e.ChainsWithin 1)) = some true := by decide +kernel
  generalize hp : parse ⟨"2*(x-3)-x*4 < 5^-x", 0⟩ { vars := ["x"] } = o at hchains
  obtain ⟨r, names'⟩ := o
  obtain ⟨e, he, hone⟩ := Option.map_eq_some_iff.mp hchains
  obtain rfl : r = .ok e := Except.ok_of_toOption he
  have hone := of_decide_eq_true hone
  exact ⟨e, names', rfl, hone, depth_of_parse hp hone⟩

end Expr

/-- Ones, with as many pluses between them. -/
def Token.ones : (pluses : Nat) → List Token
  | 0 => [literal "1"]
  | n + 1 => ones n ++ [operator .add, literal "1"]

/-- The ones written down. -/
def Segment.ones (pluses : Nat) : Segment := ⟨.ofList (Token.write (Token.ones pluses)), 0⟩

theorem Token.legible_of_mem_ones {t : Token} {n : Nat} (h : t ∈ ones n) : t.Legible := by
  have hl : lex ['1', '+'] = [literal "1", operator .add] := by decide +kernel
  have hm : t = literal "1" ∨ t = operator .add := by
    induction n with
    | zero => exact .inl (List.mem_singleton.mp h)
    | succ n ih =>
      rcases List.mem_append.mp h with h | h
      · exact ih h
      · simpa [or_comm] using h
  have hm : t ∈ lex ['1', '+'] := by simpa [hl] using hm
  refine legible_of_mem_lex hm ?_
  rw [hl] at hm
  simp only [List.mem_cons, List.not_mem_nil, or_false] at hm
  rcases hm with rfl | rfl <;> rfl

theorem Derives.one (room : Nat) (c : Column) {value : Float}
    (h : Decimal.read? "1".toList = some value) :
    Derives room .product [⟨.literal "1", c⟩] (.literal c value) := by
  have hunary : Derives room .unary ([] ++ [⟨.literal "1", c⟩]) (.literal c value) :=
    .signed nofun rfl (.lone rfl (.literal h))
  exact .lone rfl hunary

/-- Each plus takes what stands in front of it one level down. -/
theorem Derives.ones (room : Nat) (names : Names) {n : Nat} {ts : List Placed}
    (h : ts.map (·.token) = Token.ones n) :
    ∃ x e, Derives room .sum ts x ∧ Resolves names x e names ∧ e.depth = n + 1 := by
  obtain ⟨value, hvalue⟩ : ∃ value, Decimal.read? "1".toList = some value :=
    Option.isSome_iff_exists.mp (by decide +kernel)
  induction n generalizing ts with
  | zero =>
    obtain ⟨⟨t, c⟩, rfl, ht⟩ := List.map_eq_singleton_iff.mp h
    obtain rfl : t = .literal "1" := ht
    exact ⟨_, _, .lone rfl (.one room c hvalue), .literal, rfl⟩
  | succ n ih =>
    obtain ⟨us, vs, rfl, hu, hv⟩ := List.map_eq_append_iff.mp h
    obtain ⟨⟨t, c⟩, ws, rfl, ht, hw⟩ := List.map_eq_cons_iff.mp hv
    obtain ⟨⟨t', c'⟩, rfl, ht'⟩ := List.map_eq_singleton_iff.mp hw
    obtain rfl : t = .operator .add := ht
    obtain rfl : t' = .literal "1" := ht'
    obtain ⟨x, e, hx, hr, hd⟩ := ih hu
    refine ⟨_, _, .join rfl rfl hx (.one room c' hvalue), .binary hr .literal, ?_⟩
    simp only [Expr.depth, hd]
    omega

/-- A sum is read as deep as it is long, and nothing in it nests. -/
theorem Expr.parse_ones (names : Names) (n : Nat) :
    ∃ e, parse (.ones n) names = (.ok e, names) ∧ e.depth = n + 1 := by
  have ht : (Segment.ones n).tokens.map (·.token) = Token.ones n :=
    Segment.tokens_write (fun _ => Token.legible_of_mem_ones) 0
  obtain ⟨x, e, hx, hr, hd⟩ := Derives.ones Parser.maxNesting names ht
  exact ⟨e, parse_of_derives (.lone rfl (.lone rfl hx)) hr, hd⟩

/-- The sum of 2001 ones is deeper than eight levels for each level of nesting. -/
theorem Expr.depth_not_bounded : ∃ e names', parse (.ones 2000) {} = (.ok e, names') ∧
    ¬ e.depth ≤ 8 * (Parser.maxNesting + 1) := by
  obtain ⟨e, hp, hd⟩ := parse_ones {} 2000
  exact ⟨e, _, hp, by rw [hd]; decide⟩

end FormulaMachine
