import FormulaMachine.Proofs.Names
import FormulaMachine.Proofs.Parsing.Completeness
import FormulaMachine.Proofs.Parsing.Soundness

/-!
The parser and the grammar agree. Since the parser gives one answer, a text has one phrase at most.
-/
namespace FormulaMachine

variable {room : Nat} {k : Rank} {xs : List Placed} {x y : Phrase} {e : Expr}
  {names names' : Names}

namespace Parser

/-- With nothing behind it, what is derived is read to the end. -/
theorem run_of_derives_nil (h : Derives room k xs x) (hr : Resolves names x e names')
    (stop : Nat) :
    (ranked (below room) k).run ⟨xs, names, stop⟩ = (.ok e, ⟨[], names', stop⟩) := by
  have hc : Clear k [] := by rintro _ _ _ ⟨⟩
  have hx : (ranked (below room) k).run ⟨xs ++ [], names, stop⟩ = _ := run_of_derives h hr hc
  rw [List.append_nil] at hx
  exact hx.trans (run_more_none rfl)

theorem derives_of_whole {s r : Reading} (h : whole.run s = (.ok e, r)) :
    ∃ x, Derives maxNesting .expression s.tokens x ∧ Resolves s.names x e r.names := by
  obtain ⟨a, m, ha, h⟩ := ok_of_bind h
  obtain ⟨u, n, hf, h⟩ := ok_of_bind h
  obtain ⟨rfl, rfl⟩ := ok_of_pure h
  obtain ⟨hm, rfl⟩ := ok_finish hf
  rw [levels_expression] at ha
  obtain ⟨xs, x, ht, -, hx, hr⟩ := (sound_expression _).1 ha
  rw [hm, List.append_nil] at ht
  rw [ht]
  exact ⟨x, hx, hr⟩

end Parser

/-- No tokens derive two phrases of one rank. -/
theorem Derives.unique (hx : Derives room k xs x) (hy : Derives room k xs y) : x = y := by
  obtain ⟨a, namesx, hrx, -⟩ := x.exists_resolves { discover := true } rfl
  obtain ⟨b, namesy, hry, -⟩ := y.exists_resolves { discover := true } rfl
  have h := (Parser.run_of_derives_nil hx hrx 0).symm.trans (Parser.run_of_derives_nil hy hry 0)
  cases h
  rw [← hrx.phrase_eq (.refl _), ← hry.phrase_eq (.refl _)]

namespace Expr

theorem derives_of_parse {s : Segment} (h : parse s names = (.ok e, names')) :
    ∃ x, Derives Parser.maxNesting .expression s.tokens x ∧ Resolves names x e names' := by
  rw [Parser.parse_eq_run] at h
  generalize hw : Parser.whole.run (.ofText s.text s.offset names) = o at h
  obtain ⟨_, r⟩ := o
  cases h
  exact Parser.derives_of_whole hw

theorem parse_of_derives {s : Segment} (h : Derives Parser.maxNesting .expression s.tokens x)
    (hr : Resolves names x e names') : parse s names = (.ok e, names') := by
  have hx := Parser.run_of_derives_nil h hr (s.offset + s.text.length)
  have hw : Parser.whole.run (.ofText s.text s.offset names) =
      (.ok e, ⟨[], names', s.offset + s.text.length⟩) := by
    rw [Parser.whole, Parser.levels_expression]
    exact Parser.run_bind_ok hx
  rw [Parser.parse_eq_run, hw]

/-- A segment is accepted exactly if the grammar derives a phrase from its tokens whose names
resolve, and the grammar derives no more than one. -/
theorem parse_iff_derives (s : Segment) (names : Names) :
    (∀ e names', parse s names = (.ok e, names') ↔
      ∃ x, Derives Parser.maxNesting .expression s.tokens x ∧ Resolves names x e names') ∧
    ∀ x y, Derives Parser.maxNesting .expression s.tokens x →
      Derives Parser.maxNesting .expression s.tokens y → x = y := by
  refine ⟨fun e names' => ⟨derives_of_parse, ?_⟩, fun x y hx hy => hx.unique hy⟩
  rintro ⟨x, hx, hr⟩
  exact parse_of_derives hx hr

end Expr
end FormulaMachine
