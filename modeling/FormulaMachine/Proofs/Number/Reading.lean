import FormulaMachine.Decimal.Reading
import FormulaMachine.Proofs.Lexing.Literals

/-! Every literal is read as a number. -/
namespace FormulaMachine.Literal

variable {c : Char} {cs front rest digits : List Char}

theorem readMantissa_append (h : IsMantissa front)
    (hrest : ∀ c ∈ rest.head?, c.isDigit = false ∧ c ≠ '.') :
    ∃ digits places, digits ≠ [] ∧
      Decimal.readMantissa (front ++ rest) = (digits, places, rest) := by
  have hend : ∀ c ∈ rest.head?, c.isDigit = false := fun c hc => (hrest c hc).1
  cases h with
  | whole hd =>
    obtain ⟨ht, hr⟩ := span_append hd.2 hend
    refine ⟨front, 0, hd.1, ?_⟩
    unfold Decimal.readMantissa
    rw [ht, hr]
    split
    · next rest => exact absurd rfl (hrest '.' rfl).2
    · rfl
  | @pointed digits fraction hd hf =>
    have hpoint : ∀ c ∈ ('.' :: (fraction ++ rest)).head?, c.isDigit = false := by
      rintro c ⟨⟩
      rfl
    obtain ⟨ht, hr⟩ := span_append hd.2 hpoint
    obtain ⟨htf, hrf⟩ := span_append hf hend
    refine ⟨digits ++ fraction, fraction.length, by simp [hd.1], ?_⟩
    unfold Decimal.readMantissa
    rw [List.append_assoc, List.cons_append, ht, hr]
    simp only [htf, hrf]
  | @fraction digits hd =>
    obtain ⟨htf, hrf⟩ := span_append hd.2 hend
    refine ⟨digits, digits.length, hd.1, ?_⟩
    have ht : ('.' :: (digits ++ rest)).takeWhile Char.isDigit = [] := rfl
    have hr : ('.' :: (digits ++ rest)).dropWhile Char.isDigit = '.' :: (digits ++ rest) := rfl
    unfold Decimal.readMantissa
    rw [List.cons_append, ht, hr]
    simp only [htf, hrf, List.nil_append]

theorem readDigits?_of_isDigits (h : IsDigits digits) :
    Decimal.readDigits? digits = some (Decimal.ofDigits digits) := by
  have hall : digits.all Char.isDigit = true := List.all_eq_true.mpr h.2
  have hne : digits.isEmpty = false := by simpa using h.1
  rw [Decimal.readDigits?, hne, hall]
  rfl

theorem isSome_readExponent? (h : IsExponent cs) : (Decimal.readExponent? cs).isSome := by
  cases h with
  | @intro e sign digits he hsign hd =>
    have hmark : (e == 'e' || e == 'E') = true := by simpa using he
    have hread := readDigits?_of_isDigits hd
    rw [List.cons_append, Decimal.readExponent?, if_pos hmark]
    rcases hsign with rfl | rfl | rfl
    · obtain ⟨d, ds, rfl, hdigit, -⟩ := hd.exists_cons
      obtain ⟨hplus, hminus⟩ := ne_sign_of_isDigit hdigit
      simp [Decimal.readInt?, hplus, hminus, hread]
    · rw [List.cons_append, List.nil_append, Decimal.readInt?, hread]
      rfl
    · rw [List.cons_append, List.nil_append, Decimal.readInt?, hread]
      rfl

theorem isSome_read?_append (h : IsMantissa front)
    (hrest : ∀ c ∈ rest.head?, c.isDigit = false ∧ c ≠ '.')
    (he : (Decimal.readExponent? rest).isSome) : (Decimal.read? (front ++ rest)).isSome := by
  obtain ⟨digits, places, hne, hr⟩ := readMantissa_append h hrest
  have hempty : digits.isEmpty = false := by simpa using hne
  simp [Decimal.read?, hr, hempty, he]

theorem isSome_read? (h : IsLiteral cs) : (Decimal.read? cs).isSome := by
  cases h with
  | plain hm =>
    rw [← List.append_nil cs]
    exact isSome_read?_append hm nofun rfl
  | scaled hm he =>
    have hhead := he.head_not []
    rw [List.append_nil] at hhead
    exact isSome_read?_append hm hhead (isSome_readExponent? he)

/-- What stands below the letters has no case. -/
theorem toLower_of_lt (h : c.toNat < 'A'.toNat) : c.toLower = c := by
  unfold Char.toLower
  refine dif_neg ?_
  rintro ⟨hA, -⟩
  exact Nat.not_le_of_lt h (UInt32.le_iff_toNat_le.mp hA)

theorem IsMantissa.exists_cons (h : IsMantissa cs) :
    ∃ c rest, cs = c :: rest ∧ (c.isDigit ∨ c = '.') := by
  cases h with
  | whole hd =>
    obtain ⟨d, ds, rfl, hd, -⟩ := hd.exists_cons
    exact ⟨d, ds, rfl, .inl hd⟩
  | pointed hd =>
    obtain ⟨d, ds, rfl, hd, -⟩ := hd.exists_cons
    exact ⟨d, _, rfl, .inl hd⟩
  | fraction => exact ⟨'.', _, rfl, .inr rfl⟩

theorem IsLiteral.exists_cons (h : IsLiteral cs) :
    ∃ c rest, cs = c :: rest ∧ (c.isDigit ∨ c = '.') := by
  cases h with
  | plain hm => exact hm.exists_cons
  | scaled hm =>
    obtain ⟨c, rest, rfl, hc⟩ := hm.exists_cons
    exact ⟨c, _, rfl, hc⟩

/-- A literal has no sign and is not one of the numbers that have names. -/
theorem readSigned?_eq_read? (h : IsLiteral cs) : Decimal.readSigned? cs = Decimal.read? cs := by
  obtain ⟨c, rest, rfl, hc⟩ := h.exists_cons
  have hlt : c.toNat < 'A'.toNat := by
    rcases hc with hc | rfl
    · simp only [Char.isDigit, Bool.and_eq_true, decide_eq_true_eq, UInt32.le_iff_toNat_le] at hc
      exact Nat.lt_of_le_of_lt hc.2 (by decide)
    · decide
  have hsign : c ≠ '+' ∧ c ≠ '-' := by
    rcases hc with hc | rfl
    · exact ne_sign_of_isDigit hc
    · decide
  have hname : ∀ d name, d.toNat ≥ 'A'.toNat →
      String.ofList ((c :: rest).map Char.toLower) ≠ String.ofList (d :: name) := by
    intro d name hd heq
    rw [List.map_cons, toLower_of_lt hlt] at heq
    have hcons := String.ofList_injective heq
    obtain rfl := (List.cons.inj hcons).1
    omega
  have hread : Decimal.readSigned? (c :: rest) = Decimal.readExtended? (c :: rest) := by
    simp [Decimal.readSigned?, hsign]
  rw [hread, Decimal.readExtended?]
  split
  · next heq => exact absurd heq (hname 'i' _ (by decide))
  · next heq => exact absurd heq (hname 'i' _ (by decide))
  · next heq => exact absurd heq (hname 'n' _ (by decide))
  · rfl

end FormulaMachine.Literal
