import FormulaMachine.Proofs.Number.Words

/-!
Finite doubles count units. Each size that a significand has room for is the size of a double.
-/
namespace FormulaMachine.Number

open Float.Model (UnpackedFloat)
open Float.Model.UnpackedFloat

variable {m k : Nat} {s : Sign}

/-- The units of a finite double. -/
def units (x : Float) : Int := if isNegative x then -(magnitude x : Int) else magnitude x

theorem HasParts.units_eq {x : Float} (h : HasParts x s m k) :
    units x = s.apply (m * 2 ^ k : Nat) := by
  rw [units, h.isNegative_eq, h.magnitude_eq]
  cases s <;> rfl

theorem natAbs_units (x : Float) : (units x).natAbs = magnitude x := by
  rw [units]
  split
  · rw [Int.natAbs_neg, Int.natAbs_natCast]
  · rw [Int.natAbs_natCast]

theorem not_isNaN {x : Float} (h : x.isFinite = true) : x.isNaN = false := by
  change x.toModel.unpack.isFinite = true at h
  change x.toModel.unpack.isNaN = false
  cases hx : x.toModel.unpack <;> simp_all [UnpackedFloat.isFinite, UnpackedFloat.isNaN]

theorem not_isInf {x : Float} (h : x.isFinite = true) : x.isInf = false := by
  change x.toModel.unpack.isFinite = true at h
  change x.toModel.unpack.isInf = false
  cases hx : x.toModel.unpack <;> simp_all [UnpackedFloat.isFinite, UnpackedFloat.isInf]

theorem isNaN_of_isInf {x : Float} (h : x.isInf = true) : x.isNaN = false := by
  change x.toModel.unpack.isInf = true at h
  change x.toModel.unpack.isNaN = false
  cases hx : x.toModel.unpack <;> simp_all [UnpackedFloat.isInf, UnpackedFloat.isNaN]

theorem beq_zero_of_isInf {x : Float} (h : x.isInf = true) : (x == 0) = false := by
  change x.toModel.unpack.isInf = true at h
  change x.toModel.unpack.beq (.zero .positive) = false
  cases hx : x.toModel.unpack with
  | infinity s => cases s <;> rfl
  | _ => simp [hx, UnpackedFloat.isInf] at h

/-- A finite double of the given number of units. -/
def Counts (x : Float) (z : Int) : Prop := x.isFinite = true ∧ units x = z

theorem Counts.neg {x : Float} {z : Int} (h : Counts x z) : Counts (-x) (-z) := by
  obtain ⟨s, m, k, hx⟩ := exists_hasParts h.1
  refine ⟨hx.neg.isFinite, ?_⟩
  rw [← h.2, hx.neg.units_eq, hx.units_eq]
  cases s with
  | positive => rfl
  | negative => exact (Int.neg_neg _).symm

/-! ### Sizes -/

/-- The size of a finite double in units. -/
def IsSize (n : Nat) : Prop := ∃ m k, m < 2 ^ 53 ∧ k ≤ 2045 ∧ n = m * 2 ^ k

/-- The highest bits of a size are its significand, and there are no others. -/
theorem IsSize.fits {n : Nat} (h : IsSize n) :
    ∃ m, Fits m (n.log2 - 52) ∧ n = m * 2 ^ (n.log2 - 52) := by
  obtain ⟨m, k, hm, hk, hn⟩ := h
  obtain ⟨t, ht⟩ : ∃ t, n.log2 - 52 = t := ⟨_, rfl⟩
  have htk : t ≤ k := by
    by_cases hzero : n = 0
    · rw [← ht, hzero]
      exact Nat.zero_le k
    · have hlt : n < 2 ^ (53 + k) := by
        rw [hn, Nat.pow_add]
        exact Nat.mul_lt_mul_of_pos_right hm (Nat.two_pow_pos k)
      have := (Nat.log2_lt hzero).mpr hlt
      omega
  rw [ht]
  have hn' : n = m * 2 ^ (k - t) * 2 ^ t := by
    rw [Nat.mul_assoc, ← Nat.pow_add, Nat.sub_add_cancel htk]
    exact hn
  refine ⟨m * 2 ^ (k - t), ⟨?_, ?_, Nat.le_trans htk hk⟩, hn'⟩
  · have hlt : n < 2 ^ (53 + t) :=
      Nat.lt_of_lt_of_le Nat.lt_log2_self (Nat.pow_le_pow_right (by decide) (by omega))
    rw [hn', Nat.pow_add] at hlt
    exact Nat.lt_of_mul_lt_mul_right hlt
  · by_cases hzero : t = 0
    · exact .inr hzero
    · have hge : 2 ^ (52 + t) ≤ n := by
        rw [show 52 + t = n.log2 by omega]
        refine Nat.log2_self_le ?_
        rintro rfl
        exact hzero ht.symm
      rw [hn', Nat.pow_add] at hge
      exact .inl (Nat.le_of_mul_le_mul_right hge (Nat.two_pow_pos t))

theorem IsSize.exists_fits {n : Nat} (h : IsSize n) : ∃ m k, Fits m k ∧ n = m * 2 ^ k :=
  let ⟨m, hm⟩ := h.fits
  ⟨m, _, hm⟩

theorem hasParts_ofMagnitude {n : Nat} (h : IsSize n) :
    ∃ m k, HasParts (ofMagnitude n) .positive m k ∧ n = m * 2 ^ k := by
  obtain ⟨m, hf, hn⟩ := h.fits
  refine ⟨m, n.log2 - 52, ?_, hn⟩
  have hm : n / 2 ^ (n.log2 - 52) = m := Nat.div_eq_of_eq_mul_left (Nat.two_pow_pos _) hn
  rw [ofMagnitude, Nat.pow_eq, Nat.pow_eq, hm]
  refine hasParts_ofBits hf ?_
  have hlt := hf.lt
  have hle := hf.le
  have hword : (n.log2 - 52) * 2 ^ 52 + m < 2 ^ 64 := by omega
  rw [UInt64.toNat_ofNat_of_lt' hword, word, toNat_positive, Nat.zero_mul, Nat.zero_add]

theorem isSize_magnitude {x : Float} (h : x.isFinite = true) : IsSize (magnitude x) := by
  obtain ⟨s, m, k, hx⟩ := exists_hasParts h
  exact ⟨m, k, hx.fits.lt, hx.fits.le, hx.magnitude_eq⟩

theorem counts_ofMagnitude {n : Nat} (h : IsSize n) : Counts (ofMagnitude n) n := by
  obtain ⟨m, k, hx, hn⟩ := hasParts_ofMagnitude h
  exact ⟨hx.isFinite, by rw [hx.units_eq, hn]; rfl⟩

end FormulaMachine.Number
