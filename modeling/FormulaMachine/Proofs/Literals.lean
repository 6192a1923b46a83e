import FormulaMachine.Proofs.Errors

/-! What is taken for a number reaches as far as it can, and is a number. -/
namespace FormulaMachine

theorem Compiler.detail_mem_of_compile {c : Compiler} {source : String} {e : Error}
    (h : c.compile source = .error e) : e.detail ∈ Error.details :=
  (c.blames_of_compile h).1.detail_mem

namespace Token

/-- Where what is left of a source begins with a literal, the longest one is the next token, and
nowhere else is a literal the next token. Every literal is read as a number, as the same one where
signs are allowed, so no number of a source is reported as invalid. -/
theorem eq_literal_iff_isLongest (source : String) :
    (∀ before t after, lex source.toList = before ++ t :: after →
      ∃ front rest, source.toList = front ++ rest ∧ Spelling before front ∧
        ∀ text, t = literal text ↔ Literal.IsLongest text.toList rest) ∧
    (∀ cs, Literal.IsLiteral cs →
      ∃ x, Decimal.read? cs = some x ∧ Decimal.readSigned? cs = some x) ∧
    ∀ (c : Compiler) (e : Error), c.compile source = .error e → e.detail ≠ "INVALID NUMBER" := by
  refine ⟨?_, ?_, ?_⟩
  · intro before t after h
    obtain ⟨front, rest, hsource, hspelling, hrest⟩ := exists_cut_of_lex h
    refine ⟨front, rest, hsource, hspelling, ?_⟩
    intro text
    cases rest with
    | nil =>
      rw [lex] at hrest
      cases hrest
    | cons c cs =>
      rw [lex] at hrest
      obtain ⟨rfl, -⟩ := List.cons.inj hrest
      exact first_eq_literal_iff
  · intro cs h
    obtain ⟨x, hx⟩ := Option.isSome_iff_exists.mp (Literal.isSome_read? h)
    exact ⟨x, hx, (Literal.readSigned?_eq_read? h).trans hx⟩
  · intro c e h hdetail
    have hmem := Compiler.detail_mem_of_compile h
    rw [hdetail] at hmem
    exact absurd hmem (by decide)

/-- A point or an `e` that begins no more of a number ends it. -/
example : lex "1.2.3e+4e5.e-6".toList =
    [literal "1.2", literal ".3e+4", identifier "e5", unknown '.', identifier "e",
      operator .subtract, literal "6"] := by decide +kernel

end Token
end FormulaMachine
