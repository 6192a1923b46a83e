import FormulaMachine.Proofs.Compilation

/-!
Discovering variables and listing them agree. A name that is known later as a variable was never
known as a reference before, so it does not matter since when it has been in the table.
-/
namespace FormulaMachine

namespace Names

/-- Another way to keep a table. A name that is bound on the way to `final` is bound in the same way
if tables are kept like this. -/
structure Recast (final : Names) (view : Names → Names) : Prop where
  resolve {names names' : Names} {name : String} {x : Binding} :
    names.resolve name = (some x, names') → names'.Grows final →
      (view names).resolve name = (some x, view names')
  declare (names : Names) (name : String) : view (names.declare name) = (view names).declare name

theorem resolve_var {names : Names} {name : String} {i : Nat}
    (h : names.vars.idxOf? name = some i) : names.resolve name = (some (.var i), names) := by
  simp only [resolve, h]

theorem resolve_ref {names : Names} {name : String} {i : Nat} (hv : name ∉ names.vars)
    (h : latest? names.refs name = some i) : names.resolve name = (some (.ref i), names) := by
  simp only [resolve, List.idxOf?_eq_none_iff.mpr hv, h]

theorem mem_of_latest? {l : List String} {name : String} {i : Nat}
    (h : latest? l name = some i) : name ∈ l :=
  List.mem_of_getElem? (getElem?_of_latest? h)

/-- All variables are in the table from the start. -/
theorem recast_listed (final : Names) :
    Recast final fun names => { vars := final.vars, refs := names.refs } where
  resolve {names names' name x} h hg := by
    have hr := refs_of_resolve h
    rcases place_of_resolve h with ⟨i, hi, rfl⟩ | ⟨i, hv, hi, rfl⟩
    · have hi := idxOf?_of_prefix hg.vars hi
      rw [hr]
      exact resolve_var hi
    · have hn : name ∉ final.vars := by
        intro hf
        rcases hg.unshadowed name hf with hf | hf
        · exact hv hf
        · exact hf (hr ▸ mem_of_latest? hi)
      rw [hr]
      exact resolve_ref hn hi
  declare _ _ := rfl

/-- What is bound without discovery is found with it, too. -/
theorem recast_discovering (final : Names) :
    Recast final fun names => { names with discover := true } where
  resolve {names names' name x} h _ := by
    rcases resolve_cases h with ⟨i, hi, rfl, rfl⟩ | ⟨i, hv, hi, rfl, rfl⟩ | ⟨_, _, hd, rfl, rfl⟩
    · exact resolve_var hi
    · exact resolve_ref hv hi
    · obtain ⟨vars, refs, discover⟩ := names
      obtain rfl : discover = true := hd
      exact h
  declare _ _ := rfl

end Names

section
variable {names names' final : Names} {view : Names → Names} (hview : final.Recast view)
include hview

theorem Resolves.recast {x : Phrase} {e : Expr} (h : Resolves names x e names')
    (hg : names'.Grows final) : Resolves (view names) x e (view names') := by
  induction h with
  | literal => exact .literal
  | pi => exact .pi
  | euler => exact .euler
  | name h => exact .name (hview.resolve h hg)
  | call _ ih => exact .call (ih hg)
  | negation _ ih => exact .negation (ih hg)
  | call₂ _ hy ihx ihy => exact .call₂ (ihx (hy.grows.trans hg)) (ihy hg)
  | binary _ hy ihx ihy => exact .binary (ihx (hy.grows.trans hg)) (ihy hg)
  | choice _ hy hz ihx ihy ihz =>
    exact .choice (ihx ((hy.grows.trans hz.grows).trans hg)) (ihy (hz.grows.trans hg)) (ihz hg)

namespace Compiler

variable {c c' : Compiler} (hceiling : c'.ceiling = c.ceiling)
include hceiling

theorem segment_recast {s : Segment} {p : Program} (h : c.segment s names = .ok (p, names'))
    (hg : names'.Grows final) :
    names.Grows names' ∧ c'.segment s (view names) = .ok (p, view names') := by
  obtain ⟨e, hp, hq⟩ := segment_ok h
  obtain ⟨x, hx, hr⟩ := Expr.derives_of_parse hp
  have hp' := Expr.parse_of_derives hx (hr.recast hview hg)
  refine ⟨hr.grows, ?_⟩
  simp only [segment, hp', hceiling, hq]
  rfl

theorem definitions_recast {ds : List Definition} {references : List (String × Program)}
    (h : c.definitions names ds = .ok (references, names')) (hg : names'.Grows final) :
    names.Grows names' ∧ c'.definitions (view names) ds = .ok (references, view names') := by
  induction ds generalizing names references with
  | nil =>
    cases h
    exact ⟨.refl _, rfl⟩
  | cons d ds ih =>
    obtain ⟨⟨p, names₁⟩, hp, h⟩ := Except.ok_of_bind h
    obtain ⟨⟨ps, names₂⟩, hps, h⟩ := Except.ok_of_bind h
    cases h
    obtain ⟨hg₂, hps'⟩ := ih hps
    have hg₁ := (names₁.grows_declare d.name).trans hg₂
    obtain ⟨hg₀, hp'⟩ := segment_recast hview hceiling hp (hg₁.trans hg)
    refine ⟨hg₀.trans hg₁, ?_⟩
    rw [hview.declare] at hps'
    rw [definitions, hp']
    simp only [bind, Except.bind, hps']
    rfl

end Compiler
end

namespace Compiler

variable {c c' : Compiler} {source : String} {f : Formula}

/-- A formula is compiled to the same by any compiler that keeps its tables in such a way. -/
theorem recast_of_compile (h : c.compile source = .ok f) : ∃ final : Names,
    final.vars = f.vars ∧ ∀ (view : Names → Names) (c' : Compiler), final.Recast view →
      c'.ceiling = c.ceiling → c'.names = view c.names → (view final).vars = final.vars →
      c'.compile source = .ok f := by
  obtain ⟨script, hscript, h⟩ := Except.ok_of_bind (script_of_compile h)
  obtain ⟨⟨references, names⟩, hd, h⟩ := Except.ok_of_bind h
  obtain ⟨⟨main, final⟩, hs, h⟩ := Except.ok_of_bind h
  cases h
  refine ⟨final, rfl, fun view c' hview hceiling hnames hvars => ?_⟩
  obtain ⟨hg, hs'⟩ := segment_recast hview hceiling hs (.refl _)
  obtain ⟨-, hd'⟩ := definitions_recast hview hceiling hd hg
  rw [← hnames] at hd'
  simp only [compile_eq, Compiler.script, hscript, bind, Except.bind, hd', hs', hvars]
  rfl

/-- What is compiled with discovery is compiled to the same over the list of all variables that were
found, and what is compiled over a list is compiled to the same if more could be found. -/
theorem discover_iff_list (vars : List String) (ceiling : Nat) (source : String) :
    (∀ f, compile { vars, discover := true, ceiling } source = .ok f →
      compile { vars := f.vars, discover := false, ceiling } source = .ok f) ∧
    ∀ f, compile { vars, discover := false, ceiling } source = .ok f →
      compile { vars, discover := true, ceiling } source = .ok f := by
  constructor
  · intro f h
    obtain ⟨final, hvars, hrecast⟩ := recast_of_compile h
    exact hrecast _ { vars := f.vars, discover := false, ceiling } (Names.recast_listed final) rfl
      (by simp only [Compiler.names, hvars]) rfl
  · intro f h
    obtain ⟨final, -, hrecast⟩ := recast_of_compile h
    exact hrecast _ { vars, discover := true, ceiling } (Names.recast_discovering final) rfl rfl rfl

/-- The name that `a` is the first to use is declared after it. -/
theorem discover_iff_list_declared_later : ∃ f, f.vars = ["y"] ∧
    compile { discover := true } "a: y; y: 3; b: a; a + y + b" = .ok f ∧
    compile { vars := ["y"] } "a: y; y: 3; b: a; a + y + b" = .ok f ∧
    compile { vars := ["y"], discover := true } "a: y; y: 3; b: a; a + y + b" = .ok f := by
  have h : (compile { discover := true } "a: y; y: 3; b: a; a + y + b").toOption.map (·.vars) =
      some ["y"] := by decide +kernel
  obtain ⟨f, hf, hvars⟩ := Option.map_eq_some_iff.mp h
  have hf := Except.ok_of_toOption hf
  have hlist := (discover_iff_list [] 100 _).1 f hf
  rw [hvars] at hlist
  exact ⟨f, hvars, hf, hlist, (discover_iff_list ["y"] 100 _).2 f hlist⟩

end Compiler
end FormulaMachine
