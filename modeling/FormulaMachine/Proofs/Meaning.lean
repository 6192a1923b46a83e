import FormulaMachine.Proofs.Evaluation
import FormulaMachine.Proofs.Names
import FormulaMachine.Proofs.Script

/-!
What a script means. Its phrases are evaluated one after another, and each sees the variables and
the values of the definitions before it.
-/
namespace FormulaMachine

namespace Phrase

/-- A phrase with values in the place of its names. -/
def close (value : String → Float) : Phrase → Expr
  | literal c x => .operand c (.literal x)
  | pi c => .operand c .pi
  | euler c => .operand c .euler
  | name c n => .operand c (.literal (value n))
  | call c f x => .call c f (x.close value)
  | call₂ c f x y => .call₂ c f (x.close value) (y.close value)
  | choice c x y z => .choice c (x.close value) (y.close value) (z.close value)
  | negation c x => .negation c (x.close value)
  | binary c op x y => .binary c op (x.close value) (y.close value)

/-- What a name stands for is the first entry of that name. -/
def evaluate (x : Phrase) (scope : List (String × Float)) (random : RandomSource) :
    Except Error Evaluation × RandomSource :=
  (x.close fun name => (scope.lookup name).getD 0).evaluate {} random

/-- The value of `main` after the definitions that are left. Those made already are in `defined`,
the latest first, so variables come before them and later ones before earlier ones. A definition
that met a NaN counts as zero, and so does the whole once one has met a NaN. -/
def evaluateAfter (main : Phrase) (vars defined : List (String × Float)) (sawNaN : Bool)
    (random : RandomSource) : List (String × Phrase) → Except Error Evaluation × RandomSource
  | [] =>
    match main.evaluate (vars ++ defined) random with
    | (.error e, random) => (.error e, random)
    | (.ok r, random) => (.ok (if sawNaN then { value := 0, sawNaN := true } else r), random)
  | (n, x) :: rest =>
    match x.evaluate (vars ++ defined) random with
    | (.error e, random) => (.error e, random)
    | (.ok r, random) =>
      main.evaluateAfter vars ((n, r.value) :: defined) (sawNaN || r.sawNaN) random rest

theorem settled_of_evaluateAfter {main : Phrase} {vars defined : List (String × Float)}
    {sawNaN : Bool} {random random' : RandomSource} {xs : List (String × Phrase)} {r : Evaluation}
    (h : main.evaluateAfter vars defined sawNaN random xs = (.ok r, random')) : r.Settled := by
  induction xs generalizing defined sawNaN random with
  | nil =>
    rw [evaluateAfter] at h
    split at h
    · cases h
    · next hr =>
      cases h
      split
      · exact .zero
      · exact Expr.settled_of_evaluate hr
  | cons d xs ih =>
    rw [evaluateAfter] at h
    split at h
    · cases h
    · exact ih h

end Phrase

/-- The phrases of a script: those of its definitions, under their names, and that of its main
expression. -/
inductive Script.Says : Script → List (String × Phrase) → Phrase → Prop
  | main {s : Segment} {x : Phrase} :
    Derives Parser.maxNesting .expression s.tokens x → Says { definitions := [], main := s } [] x
  | definition {d : Definition} {ds : List Definition} {s : Segment} {y x : Phrase}
      {ys : List (String × Phrase)} :
    Derives Parser.maxNesting .expression d.toSegment.tokens y →
    Says { definitions := ds, main := s } ys x →
    Says { definitions := d :: ds, main := s } ((d.name, y) :: ys) x

theorem lookup_zip {l : List String} {xs : List Float} {name : String} {i : Nat}
    (h : l.idxOf? name = some i) (hl : l.length = xs.length) :
    (l.zip xs).lookup name = xs[i]? := by
  induction l generalizing xs i with
  | nil => cases h
  | cons n l ih =>
    obtain _ | ⟨x, xs⟩ := xs
    · cases hl
    · rw [List.idxOf?_cons] at h
      split at h
      · next hn =>
        cases h
        simp [eq_of_beq hn]
      · next hn =>
        obtain ⟨j, hj, rfl⟩ := Option.map_eq_some_iff.mp h
        have hne : (name == n) = false := by
          rw [beq_eq_false_iff_ne]
          rintro rfl
          exact hn (beq_self_eq_true _)
        rw [List.zip_cons_cons, List.lookup_cons, hne, List.getElem?_cons_succ]
        exact ih hj (Nat.succ.inj hl)

theorem lookup_zip_none {l : List String} {xs : List Float} {name : String} (h : name ∉ l) :
    (l.zip xs).lookup name = none := by
  apply List.lookup_eq_none_iff.mpr
  intro p hp
  rw [bne_iff_ne]
  rintro rfl
  exact h (List.of_mem_zip hp).1

/-- Variables, and definitions from the latest to the earliest, with their values. -/
def Names.scope (final names : Names) (env : Environment) : List (String × Float) :=
  final.vars.zip env.vars ++ (names.refs.zip env.refs).reverse

/-- What a segment of a formula can refer to: all variables that there will be, and the definitions
before it. -/
structure Environment.Fits (env : Environment) (final names : Names) : Prop where
  vars : final.vars.length = env.vars.length
  refs : names.refs.length = env.refs.length

section
variable {names names' final : Names} {env : Environment} {x : Phrase} {e : Expr}

theorem value_of_resolve {name : String} {b : Binding}
    (h : names.resolve name = (some b, names')) (hg : names'.Grows final)
    (he : env.Fits final names) :
    b.operand.value env = ((final.scope names env).lookup name).getD 0 := by
  rw [Names.scope, List.lookup_append]
  rcases Names.place_of_resolve h with ⟨i, hi, rfl⟩ | ⟨i, hv, hi, rfl⟩
  · have hi := Names.idxOf?_of_prefix hg.vars hi
    have hl := (List.getElem?_eq_some_iff.mp (Names.getElem?_of_idxOf? hi)).1
    rw [he.vars] at hl
    simp [lookup_zip hi he.vars, hl, Binding.operand, Operand.value]
  · obtain ⟨j, hj, rfl⟩ := Option.map_eq_some_iff.mp hi
    have hr : names.refs.reverse.length = env.refs.reverse.length := by simp [he.refs]
    have hm := List.mem_reverse.mp (List.mem_of_getElem? (Names.getElem?_of_idxOf? hj))
    have hl := (List.getElem?_eq_some_iff.mp (Names.getElem?_of_idxOf? hj)).1
    rw [List.length_reverse, he.refs] at hl
    rw [← Names.refs_of_resolve h] at hm
    have hn : name ∉ final.vars := by
      intro hf
      rcases hg.unshadowed name hf with hf | hf
      · exact hv hf
      · exact hf hm
    rw [lookup_zip_none hn, List.zip, List.reverse_zipWith he.refs, ← List.zip,
      lookup_zip hj hr, List.getElem?_reverse hl]
    simp [Binding.operand, Operand.value, he.refs]

theorem bound_of_resolve {name : String} {b : Binding}
    (h : names.resolve name = (some b, names')) (hg : names'.Grows final)
    (he : env.Fits final names) : b.operand.Bound env := by
  have hb := hg.bound? (Names.bound?_of_resolve h)
  cases b with
  | var i =>
    have hi := (List.getElem?_eq_some_iff.mp hb).1
    rw [he.vars] at hi
    exact hi
  | ref i =>
    have hb := Names.bound?_of_resolve h
    have hi := (List.getElem?_eq_some_iff.mp hb).1
    rw [Names.refs_of_resolve h, he.refs] at hi
    exact hi

theorem Environment.Fits.of_resolves (h : Resolves names x e names') (he : env.Fits final names) :
    env.Fits final names' :=
  ⟨he.vars, by rw [h.refs_eq, he.refs]⟩

namespace Resolves

theorem scope_eq (h : Resolves names x e names') :
    final.scope names' env = final.scope names env := by
  rw [Names.scope, Names.scope, h.refs_eq]

theorem bound (h : Resolves names x e names') (hg : names'.Grows final)
    (he : env.Fits final names) : e.Bound env := by
  induction h with
  | literal | pi | euler => exact Expr.bound_operand.mpr trivial
  | name h => exact Expr.bound_operand.mpr (bound_of_resolve h hg he)
  | call _ ih | negation _ ih => exact ih hg he
  | call₂ hx hy ihx ihy =>
    exact Expr.bound_call₂.mpr ⟨ihx (hy.grows.trans hg) he, ihy hg (he.of_resolves hx)⟩
  | binary hx hy ihx ihy =>
    exact Expr.bound_binary.mpr ⟨ihx (hy.grows.trans hg) he, ihy hg (he.of_resolves hx)⟩
  | choice hx hy hz ihx ihy ihz =>
    have hbx := ihx ((hy.grows.trans hz.grows).trans hg) he
    have hby := ihy (hz.grows.trans hg) (he.of_resolves hx)
    have hbz := ihz hg ((he.of_resolves hx).of_resolves hy)
    exact Expr.bound_choice.mpr ⟨⟨hbx, hby⟩, hbz⟩

/-- Looking the names up in the table and then the operands in the environment is the same as
looking the names up in the scope. -/
theorem eval_eq (h : Resolves names x e names') (hg : names'.Grows final)
    (he : env.Fits final names) (height : Nat) :
    e.eval env height =
      (x.close fun n => ((final.scope names env).lookup n).getD 0).eval {} height := by
  induction h generalizing height with
  | literal | pi | euler => rfl
  | name h =>
    simp only [Phrase.close, Expr.eval, value_of_resolve h hg he]
    rfl
  | call _ ih | negation _ ih => simp only [Phrase.close, Expr.eval, ih hg he]
  | call₂ hx hy ihx ihy | binary hx hy ihx ihy =>
    have ihy := ihy hg (he.of_resolves hx)
    rw [scope_eq hx] at ihy
    simp only [Phrase.close, Expr.eval, ihx (hy.grows.trans hg) he, ihy]
  | choice hx hy hz ihx ihy ihz =>
    have ihy := ihy (hz.grows.trans hg) (he.of_resolves hx)
    have ihz := ihz hg ((he.of_resolves hx).of_resolves hy)
    rw [scope_eq hx] at ihy
    rw [scope_eq hy, scope_eq hx] at ihz
    simp only [Phrase.close, Expr.eval, ihx ((hy.grows.trans hz.grows).trans hg) he, ihy, ihz]

theorem evaluate_eq (h : Resolves names x e names') (hg : names'.Grows final)
    (he : env.Fits final names) (random : RandomSource) :
    e.evaluate env random = x.evaluate (final.scope names env) random := by
  rw [Phrase.evaluate, Expr.evaluate, Expr.evaluate, h.eval_eq hg he]

end Resolves

/-- The definition that has just been made is the latest. -/
theorem scope_declare (he : env.Fits final names) (hr : names'.refs = names.refs) (name : String)
    (v : Float) : ((names'.declare name).refs.zip (env.refs ++ [v])).reverse =
      (name, v) :: (names.refs.zip env.refs).reverse := by
  rw [Names.declare, hr, List.zip_append he.refs, List.reverse_append]
  rfl

theorem Environment.Fits.declare (he : env.Fits final names) (hr : names'.refs = names.refs)
    (name : String) (v : Float) :
    Fits { env with refs := env.refs ++ [v] } final (names'.declare name) :=
  ⟨he.vars, by simp [Names.declare, hr, he.refs]⟩

end
end FormulaMachine
