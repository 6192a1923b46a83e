import FormulaMachine.Proofs.Number.Units

/-!
Arithmetic of finite doubles, told in units. What a significand has room for is not rounded. A
double may be too large to be doubled, and half of an odd number of units goes to the even neighbour.
-/
namespace FormulaMachine.Number

open Float.Model (Format UnpackedFloat totalExponent)
open Float.Model.UnpackedFloat

variable {m k j n l : Nat} {s t : Sign} {x y : Float} {a b : Int}

/-! ### Rounding -/

theorem log2_mul_two_pow (hm : 0 < m) (j : Nat) : (m * 2 ^ j).log2 = m.log2 + j := by
  have hne := Nat.ne_of_gt hm
  have hpos := Nat.two_pow_pos j
  rw [Nat.log2_eq_iff (Nat.ne_of_gt (Nat.mul_pos hm hpos)), Nat.add_right_comm, Nat.pow_add,
    Nat.pow_add]
  exact ⟨Nat.mul_le_mul_right _ (Nat.log2_self_le hne),
    Nat.mul_lt_mul_of_pos_right Nat.lt_log2_self hpos⟩

theorem targetExponent_binary64 (e : Int) :
    Format.binary64.targetExponent e = max (e - 53) (-1074) := rfl

/-- Rounding aims at the scale of the significand, wherever its last bit stands. -/
theorem targetExponent_eq {e : Int} (hm : 0 < m) (hlt : m < 2 ^ 53) (hn : 2 ^ 52 ≤ m ∨ k = 0)
    (he : (n.log2 : Int) + e = m.log2 + ((k : Int) - 1074)) :
    Format.binary64.targetExponent (totalExponent n e) = (k : Int) - 1074 := by
  have hne := Nat.ne_of_gt hm
  have hle : m.log2 < 53 := (Nat.log2_lt hne).mpr hlt
  have hlog : 52 ≤ m.log2 ∨ k = 0 := hn.imp_left (Nat.le_log2 hne).mpr
  rw [targetExponent_binary64, totalExponent]
  omega

/-- No bit is lost when low zeros are shifted out. -/
theorem repeat_shiftRightOne (m j : Nat) :
    j.repeat ExtendedMantissa.shiftRightOne ⟨m * 2 ^ j, false, false⟩ = ⟨m, false, false⟩ := by
  induction j generalizing m with
  | zero => simp [Nat.repeat]
  | succ j ih =>
    have hpow : m * 2 ^ (j + 1) = m * 2 * 2 ^ j := by
      rw [Nat.pow_succ, Nat.mul_right_comm, Nat.mul_assoc]
    rw [Nat.repeat, hpow, ih]
    simp [ExtendedMantissa.shiftRightOne]

theorem shiftToTargetExponent_eq (hm : 0 < m) (hlt : m < 2 ^ 53) (hn : 2 ^ 52 ≤ m ∨ k = 0)
    (j : Nat) :
    shiftToTargetExponent Format.binary64 (m * 2 ^ j) ((k : Int) - 1074 - j) .exact =
      (⟨m, false, false⟩, (k : Int) - 1074) := by
  have hlog : ((m * 2 ^ j).log2 : Int) + ((k : Int) - 1074 - j) = m.log2 + ((k : Int) - 1074) := by
    rw [log2_mul_two_pow hm]
    push_cast
    omega
  have hshift : ((k : Int) - 1074 - ((k : Int) - 1074 - j)).toNat = j := by omega
  rw [shiftToTargetExponent, targetExponent_eq hm hlt hn hlog, shiftToExponent, hshift]
  exact Prod.ext (repeat_shiftRightOne m j) (Int.sub_add_cancel _ _)

/-- What a significand has room for is not rounded. -/
theorem roundWithAccuracy_eq (hm : 0 < m) (hlt : m < 2 ^ 53) (hn : 2 ^ 52 ≤ m ∨ k = 0) (s : Sign)
    (j : Nat) :
    roundWithAccuracy Format.binary64 s (m * 2 ^ j) ((k : Int) - 1074 - j) .exact =
      .finite s m ((k : Int) - 1074) hm := by
  have hagain := shiftToTargetExponent_eq hm hlt hn 0
  simp only [Nat.pow_zero, Nat.mul_one, Int.natCast_zero, Int.sub_zero] at hagain
  simp only [roundWithAccuracy, shiftToTargetExponent_eq hm hlt hn j]
  simp only [ExtendedMantissa.roundedMantissa, ExtendedMantissa.accuracy,
    Accuracy.roundToNearestEven, hagain, dif_neg (Nat.ne_of_gt hm)]

theorem round_eq {i : Nat} (hm : 0 < m) (hlt : m < 2 ^ 53) (hn : 2 ^ 52 ≤ m ∨ k = 0) (s : Sign)
    (hv : n * 2 ^ i = m * 2 ^ k) :
    UnpackedFloat.round Format.binary64 s n ((i : Int) - 1074) =
      .finite s m ((k : Int) - 1074) hm := by
  have hpos : 0 < n := by
    refine Nat.pos_of_ne_zero fun h => ?_
    rw [h, Nat.zero_mul] at hv
    exact absurd hv.symm (Nat.ne_of_gt (Nat.mul_pos hm (Nat.two_pow_pos k)))
  have hlog : n.log2 + i = m.log2 + k := by
    rw [← log2_mul_two_pow hpos, ← log2_mul_two_pow hm, hv]
  rw [UnpackedFloat.round, targetExponent_eq hm hlt hn (by omega), decreaseExponent]
  rcases Nat.le_total k i with hik | hik
  · have hshift : ((i : Int) - 1074 - ((k : Int) - 1074)).toNat = i - k := by omega
    have hmantissa : n <<< (i - k) = m := by
      rw [Nat.shiftLeft_eq]
      rw [show 2 ^ i = 2 ^ (i - k) * 2 ^ k by rw [← Nat.pow_add, Nat.sub_add_cancel hik],
        ← Nat.mul_assoc] at hv
      exact Nat.eq_of_mul_eq_mul_right (Nat.two_pow_pos k) hv
    have hexponent : (i : Int) - 1074 - (i - k : Nat) = (k : Int) - 1074 := by omega
    have hround := roundWithAccuracy_eq hm hlt hn s 0
    simp only [Nat.pow_zero, Nat.mul_one, Int.natCast_zero, Int.sub_zero] at hround
    simp only [hshift, hmantissa, hexponent, hround]
  · have hshift : ((i : Int) - 1074 - ((k : Int) - 1074)).toNat = 0 := by omega
    have hmantissa : n = m * 2 ^ (k - i) := by
      rw [show 2 ^ k = 2 ^ (k - i) * 2 ^ i by rw [← Nat.pow_add, Nat.sub_add_cancel hik],
        ← Nat.mul_assoc] at hv
      exact Nat.eq_of_mul_eq_mul_right (Nat.two_pow_pos i) hv
    have hexponent : (i : Int) - 1074 = (k : Int) - 1074 - (k - i : Nat) := by omega
    have hround := roundWithAccuracy_eq hm hlt hn s (k - i)
    rw [← hmantissa, ← hexponent] at hround
    simp only [hshift, Nat.shiftLeft_zero, Int.natCast_zero, Int.sub_zero, hround]

/-- A number of units that a significand has room for is that of a double. -/
theorem normalize_eq {z : Int} {i : Nat} (h : Fits m k) (hv : z.natAbs * 2 ^ i = m * 2 ^ k) :
    ∃ s, UnpackedFloat.normalize Format.binary64 z ((i : Int) - 1074) .positive = unpacked s m k ∧
      s.apply (m * 2 ^ k : Nat) = z * 2 ^ i := by
  have hm (hz : z ≠ 0) : 0 < m := by
    refine Nat.pos_of_ne_zero fun hm => ?_
    rw [hm, Nat.zero_mul] at hv
    have := Nat.mul_pos (Int.natAbs_pos.mpr hz) (Nat.two_pow_pos i)
    omega
  rcases Int.lt_trichotomy z 0 with hz | rfl | hz
  · have hpos := hm (Int.ne_of_lt hz)
    refine ⟨.negative, ?_, ?_⟩
    · have habs : (-z).toNat * 2 ^ i = m * 2 ^ k := by
        rw [← hv, show (-z).toNat = z.natAbs by omega]
      rw [UnpackedFloat.normalize, Int.compare_eq_lt.mpr hz, unpacked, dif_pos hpos]
      exact round_eq hpos h.lt h.normalized .negative habs
    · rw [← hv]
      change -((z.natAbs * 2 ^ i : Nat) : Int) = z * 2 ^ i
      rw [show z = -(z.natAbs : Int) by omega, Int.natAbs_neg, Int.natAbs_natCast]
      push_cast
      ring
  · have hm : m = 0 := by
      have := Nat.two_pow_pos k
      rw [Int.natAbs_zero, Nat.zero_mul] at hv
      exact (Nat.mul_eq_zero.mp hv.symm).resolve_right (Nat.ne_of_gt this)
    refine ⟨.positive, ?_, ?_⟩
    · rw [unpacked, dif_neg (by omega)]
      rfl
    · simp [hm, Sign.apply]
  · have hpos := hm (Int.ne_of_gt hz)
    refine ⟨.positive, ?_, ?_⟩
    · have habs : z.toNat * 2 ^ i = m * 2 ^ k := by
        rw [← hv, show z.toNat = z.natAbs by omega]
      rw [UnpackedFloat.normalize, Int.compare_eq_gt.mpr hz, unpacked, dif_pos hpos]
      exact round_eq hpos h.lt h.normalized .positive habs
    · rw [← hv]
      change ((z.natAbs * 2 ^ i : Nat) : Int) = z * 2 ^ i
      rw [show z = (z.natAbs : Int) by omega, Int.natAbs_natCast]
      push_cast
      rfl

/-- The double of a sign, a significand and a scale that have been packed. -/
theorem hasParts_of_pack (h : Fits m k) (hx : x.toModel = Float.Model.pack (unpacked s m k)) :
    HasParts x s m k where
  fits := h
  toNat_toBits := by
    change x.toModel.toBits.toNat = word s m k
    rw [hx]
    exact toNat_pack h s

theorem HasParts.counts (h : HasParts x s m k) : Counts x (s.apply (m * 2 ^ k : Nat)) :=
  ⟨h.isFinite, h.units_eq⟩

theorem Counts.exists_hasParts (h : Counts x a) :
    ∃ s m k, HasParts x s m k ∧ a = s.apply (m * 2 ^ k : Nat) := by
  obtain ⟨s, m, k, hx⟩ := Number.exists_hasParts h.1
  exact ⟨s, m, k, hx, h.2.symm.trans hx.units_eq⟩

/-- A number of units is one of coarser units. -/
theorem apply_shiftLeft_mul {i : Nat} (h : i ≤ k) (s : Sign) (m : Nat) :
    s.apply ((m <<< (k - i) : Nat) : Int) * 2 ^ i = s.apply ((m * 2 ^ k : Nat) : Int) := by
  have hpow : m <<< (k - i) * 2 ^ i = m * 2 ^ k := by
    rw [Nat.shiftLeft_eq, Nat.mul_assoc, ← Nat.pow_add, Nat.sub_add_cancel h]
  rw [← hpow]
  cases s with
  | positive => simp [Sign.apply]
  | negative => simp [Sign.apply]

theorem fits_zero : Fits 0 0 := ⟨by decide, .inr rfl, by decide⟩

theorem unpacked_zero (s : Sign) (k : Nat) : unpacked s 0 k = .zero s := dif_neg (Nat.lt_irrefl 0)

theorem unpacked_of_pos (hm : 0 < m) (s : Sign) (k : Nat) :
    unpacked s m k = .finite s m ((k : Int) - 1074) hm := dif_pos hm

theorem apply_zero (s : Sign) (k : Nat) : s.apply ((0 * 2 ^ k : Nat) : Int) = 0 := by
  rw [Nat.zero_mul]
  cases s <;> rfl

theorem apply_neg (s : Sign) (z : Int) : (-s).apply z = -s.apply z := by
  cases s with
  | positive => rfl
  | negative => exact (Int.neg_neg z).symm

theorem sub_unpacked (hx : Fits m k) (hy : Fits n l)
    (h : IsSize (s.apply (m * 2 ^ k : Nat) - t.apply (n * 2 ^ l : Nat)).natAbs) :
    ∃ r m' k', Fits m' k' ∧
      UnpackedFloat.sub Format.binary64 (unpacked s m k) (unpacked t n l) = unpacked r m' k' ∧
      r.apply (m' * 2 ^ k' : Nat) = s.apply (m * 2 ^ k : Nat) - t.apply (n * 2 ^ l : Nat) := by
  rcases Nat.eq_zero_or_pos m with rfl | hm
  · rcases Nat.eq_zero_or_pos n with rfl | hn
    · refine ⟨if s == -t then s else .positive, 0, 0, fits_zero, ?_, ?_⟩
      · simp only [unpacked_zero, UnpackedFloat.sub]
        split <;> rfl
      · simp only [apply_zero, Int.sub_zero]
    · refine ⟨-t, n, l, hy, ?_, ?_⟩
      · simp only [unpacked_zero, unpacked_of_pos hn, UnpackedFloat.sub]
      · rw [apply_zero, Int.zero_sub, apply_neg]
  · rcases Nat.eq_zero_or_pos n with rfl | hn
    · refine ⟨s, m, k, hx, ?_, ?_⟩
      · simp only [unpacked_zero, unpacked_of_pos hm, UnpackedFloat.sub]
      · rw [apply_zero, Int.sub_zero]
    · obtain ⟨i, hi⟩ : ∃ i, i = min k l := ⟨_, rfl⟩
      obtain ⟨m', k', hfits, hv⟩ := h.exists_fits
      have hexponent : min ((k : Int) - 1074) ((l : Int) - 1074) = (i : Int) - 1074 := by omega
      have hshift : ((k : Int) - 1074 - ((i : Int) - 1074)).toNat = k - i := by omega
      have hshift' : ((l : Int) - 1074 - ((i : Int) - 1074)).toNat = l - i := by omega
      have hz : (s.apply ((m <<< (k - i) : Nat) : Int) - t.apply ((n <<< (l - i) : Nat) : Int)) *
          2 ^ i = s.apply (m * 2 ^ k : Nat) - t.apply (n * 2 ^ l : Nat) := by
        rw [Int.sub_mul, apply_shiftLeft_mul (by omega), apply_shiftLeft_mul (by omega)]
      have hpow : (2 ^ i : Int).natAbs = 2 ^ i := Int.natAbs_pow 2 i
      rw [← congrArg Int.natAbs hz, Int.natAbs_mul, hpow] at hv
      obtain ⟨r, hnormalize, hr⟩ := normalize_eq hfits hv
      refine ⟨r, _, _, hfits, ?_, hr.trans hz⟩
      simp only [unpacked_of_pos hm, unpacked_of_pos hn, UnpackedFloat.sub, decreaseExponent,
        hexponent, hshift, hshift']
      exact hnormalize

/-! ### Differences -/

/-- A difference that is the size of a double is exact. -/
theorem Counts.sub (hx : Counts x a) (hy : Counts y b) (h : IsSize (a - b).natAbs) :
    Counts (x - y) (a - b) := by
  obtain ⟨s, m, k, hparts, rfl⟩ := hx.exists_hasParts
  obtain ⟨t, n, l, hparts', rfl⟩ := hy.exists_hasParts
  obtain ⟨r, m', k', hfits, hsub, hunits⟩ := sub_unpacked hparts.fits hparts'.fits h
  rw [← hunits]
  refine (hasParts_of_pack hfits ?_).counts
  rw [← hsub, ← hparts.unpack_eq, ← hparts'.unpack_eq]
  rfl

/-! ### Twice and half -/

theorem hasParts_two : HasParts 2 .positive (2 ^ 52) 1023 where
  fits := ⟨by decide, .inl (Nat.le_refl _), by decide⟩
  toNat_toBits := by decide +kernel

/-- The significand stays, or it is doubled where there is no smaller scale. -/
theorem two_mul_unpacked (hm : 0 < m) (h : Fits m k) : ∃ m' k', ∃ hm' : 0 < m',
    m' < 2 ^ 53 ∧ (2 ^ 52 ≤ m' ∨ k' = 0) ∧ k' ≤ k + 1 ∧ m' * 2 ^ k' = 2 * (m * 2 ^ k) ∧
      UnpackedFloat.mul Format.binary64 (unpacked .positive (2 ^ 52) 1023) (unpacked s m k) =
        .finite s m' ((k' : Int) - 1074) hm' := by
  have hsign : Sign.positive * s = s := by cases s <;> rfl
  by_cases hn : 2 ^ 52 ≤ m
  · have hround := roundWithAccuracy_eq (k := k + 1) hm h.lt (.inl hn) s 52
    refine ⟨m, k + 1, hm, h.lt, .inl hn, Nat.le_refl _, by rw [Nat.pow_succ]; ring, ?_⟩
    rw [← hround, unpacked_of_pos (by decide), unpacked_of_pos hm, UnpackedFloat.mul, hsign,
      Nat.mul_comm m]
    congr 1
    push_cast
    omega
  · have hk : k = 0 := h.normalized.resolve_left hn
    subst hk
    have hm' : 0 < 2 * m := by omega
    have hround := roundWithAccuracy_eq (k := 0) hm' (by omega) (.inr rfl) s 51
    refine ⟨2 * m, 0, hm', by omega, .inr rfl, by omega, by ring, ?_⟩
    rw [← hround, unpacked_of_pos (by decide), unpacked_of_pos hm, UnpackedFloat.mul, hsign]
    congr 1
    omega

/-- There is no scale above 2045, and what would need it is infinite. -/
theorem isInf_of_pack (hk : k = 2046) (hm : 0 < m)
    (hx : x.toModel = Float.Model.pack (.finite s m ((k : Int) - 1074) hm)) : x.isInf = true := by
  subst hk
  have hpack : pack Format.binary64 (.finite s m (((2046 : Nat) : Int) - 1074) hm) =
      packedInfinity Format.binary64 s := by
    rw [pack]
    exact if_pos (by decide)
  change x.toModel.unpack.isInf = true
  rw [hx]
  change (unpack Format.binary64 (pack Format.binary64 _)).isInf = true
  rw [hpack]
  cases s <;> decide

theorem IsSize.lt (h : IsSize n) (hm : 2 ^ 52 ≤ m) (hk : 2046 ≤ k) : n < m * 2 ^ k := by
  obtain ⟨m', k', hm', hk', rfl⟩ := h
  calc m' * 2 ^ k' < 2 ^ 53 * 2 ^ k' := Nat.mul_lt_mul_of_pos_right hm' (Nat.two_pow_pos k')
    _ = 2 ^ 52 * 2 ^ (k' + 1) := by rw [Nat.pow_succ 2 k']; omega
    _ ≤ m * 2 ^ k := Nat.mul_le_mul hm (Nat.pow_le_pow_right (by decide) (by omega))

theorem natAbs_apply (s : Sign) (z : Int) : (s.apply z).natAbs = z.natAbs := by
  cases s with
  | positive => rfl
  | negative => exact Int.natAbs_neg z

/-- A double is doubled, unless no double is so large. -/
theorem Counts.two_mul (h : Counts x a) :
    Counts (2 * x) (2 * a) ∨ (2 * x).isInf = true ∧ ∀ n, IsSize n → n < (2 * a).natAbs := by
  obtain ⟨s, m, k, hx, rfl⟩ := h.exists_hasParts
  have hmodel : (2 * x).toModel = Float.Model.pack (UnpackedFloat.mul Format.binary64
      (unpacked .positive (2 ^ 52) 1023) (unpacked s m k)) := by
    rw [← hx.unpack_eq, ← hasParts_two.unpack_eq]
    rfl
  rcases Nat.eq_zero_or_pos m with rfl | hm
  · have hmul : UnpackedFloat.mul Format.binary64 (unpacked .positive (2 ^ 52) 1023)
        (unpacked s 0 k) = unpacked s 0 0 := by
      cases s <;> rfl
    rw [apply_zero, Int.mul_zero, ← apply_zero s 0]
    exact .inl (hasParts_of_pack fits_zero (hmul ▸ hmodel)).counts
  obtain ⟨m', k', hm', hlt, hn, hk', hv, hmul⟩ := two_mul_unpacked (s := s) hm hx.fits
  have hunits : s.apply ((m' * 2 ^ k' : Nat) : Int) = 2 * s.apply ((m * 2 ^ k : Nat) : Int) := by
    rw [hv]
    cases s <;> simp [Sign.apply]
  rw [hmul] at hmodel
  by_cases hk : k' ≤ 2045
  · left
    rw [← hunits]
    exact (hasParts_of_pack ⟨hlt, hn, hk⟩ (unpacked_of_pos hm' s k' ▸ hmodel)).counts
  · have hle := hx.fits.le
    have hk' : k' = 2046 := by omega
    refine .inr ⟨isInf_of_pack hk' hm' hmodel, fun n h => ?_⟩
    rw [← hunits, natAbs_apply, Int.natAbs_natCast]
    exact h.lt (hn.resolve_right (by omega)) (by omega)

/-- Half of `n`, a lone half going to the even neighbour. -/
def halfEven (n : Nat) : Nat := n / 2 + if n % 4 = 3 then 1 else 0

theorem halfEven_two_mul (n : Nat) : halfEven (2 * n) = n := by
  rw [halfEven]
  split <;> omega

/-- At the least scale nothing is shifted, and what the accuracy says is done. -/
theorem roundWithAccuracy_least (acc : Accuracy) (hm : m < 2 ^ 53)
    (hr : acc.roundToNearestEven m < 2 ^ 53) (s : Sign) :
    roundWithAccuracy Format.binary64 s m (-1074) acc =
      unpacked s (acc.roundToNearestEven m) 0 := by
  have hshift (m : Nat) (acc : Accuracy) (hm : m < 2 ^ 53) :
      shiftToTargetExponent Format.binary64 m (-1074) acc =
        (ExtendedMantissa.ofMantissaAndAccuracy m acc, -1074) := by
    have hlog : m.log2 ≤ 52 := by
      rcases Nat.eq_zero_or_pos m with rfl | hpos
      · decide
      · have := (Nat.log2_lt (Nat.ne_of_gt hpos)).mpr hm
        omega
    have htarget : Format.binary64.targetExponent (totalExponent m (-1074)) = -1074 := by
      rw [targetExponent_binary64, totalExponent]
      omega
    rw [shiftToTargetExponent, htarget]
    rfl
  have hrounded (m : Nat) (acc : Accuracy) :
      (ExtendedMantissa.ofMantissaAndAccuracy m acc).roundedMantissa =
        acc.roundToNearestEven m := by
    cases acc with
    | exact => rfl
    | inexact o => cases o <;> rfl
  simp only [roundWithAccuracy, hshift m acc hm, hrounded, hshift _ .exact hr]
  by_cases hpos : 0 < acc.roundToNearestEven m
  · rw [unpacked_of_pos hpos]
    exact dif_neg (Nat.ne_of_gt hpos)
  · rw [unpacked, dif_neg hpos]
    exact dif_pos (Nat.eq_zero_of_not_pos hpos)

/-- The quotient by two is cut off at the exponent that rounding will aim at. -/
theorem divCore_two {e : Int} (hm : 0 < m) (hlt : m < 2 ^ 53)
    (he : e = max ((m.log2 : Int) + k - 1128) (-1074)) :
    divCore Format.binary64 m ((k : Int) - 1074) (2 ^ 52) (((1023 : Nat) : Int) - 1074) =
      (m <<< ((k : Int) - 1023 - e).toNat / 2 ^ 52, e,
        accuracyOfFraction (m <<< ((k : Int) - 1023 - e).toNat % 2 ^ 52) (2 ^ 52)) := by
  have hlog : m.log2 < 53 := (Nat.log2_lt (Nat.ne_of_gt hm)).mpr hlt
  have hdifference : (k : Int) - 1074 - (((1023 : Nat) : Int) - 1074) = (k : Int) - 1023 := by omega
  have htarget : min ((k : Int) - 1023) (Format.binary64.targetExponent
      (totalExponent m ((k : Int) - 1074) - totalExponent (2 ^ 52) (((1023 : Nat) : Int) - 1074))) =
      e := by
    have htwo : totalExponent (2 ^ 52) (((1023 : Nat) : Int) - 1074) = 2 := by
      rw [totalExponent, Nat.log2_two_pow]
      rfl
    rw [htwo, targetExponent_binary64, totalExponent]
    omega
  rw [divCore, hdifference, htarget]

/-- The half of a significand is rounded as its last bit demands. -/
theorem roundToNearestEven_half (m : Nat) :
    (accuracyOfFraction (m <<< 51 % 2 ^ 52) (2 ^ 52)).roundToNearestEven (m <<< 51 / 2 ^ 52) =
      halfEven m := by
  have hquotient : m <<< 51 / 2 ^ 52 = m / 2 := by
    rw [Nat.shiftLeft_eq]
    omega
  have hremainder : m <<< 51 % 2 ^ 52 = m % 2 * 2 ^ 51 := by
    rw [Nat.shiftLeft_eq]
    omega
  rw [hquotient, hremainder, halfEven]
  rcases Nat.mod_two_eq_zero_or_one m with hm | hm
  · rw [hm, if_neg (by omega)]
    rfl
  · rw [hm]
    change m / 2 + m / 2 % 2 = _
    split <;> omega

/-- Half of a number of units is rounded where there is no smaller scale. -/
theorem div_two_unpacked (hm : 0 < m) (h : Fits m k) : ∃ m' k', Fits m' k' ∧
    m' * 2 ^ k' = halfEven (m * 2 ^ k) ∧
      UnpackedFloat.div Format.binary64 (unpacked s m k) (unpacked .positive (2 ^ 52) 1023) =
        unpacked s m' k' := by
  have hsign : s / Sign.positive = s := by cases s <;> rfl
  have hlt := h.lt
  have hlog : m.log2 < 53 := (Nat.log2_lt (Nat.ne_of_gt hm)).mpr hlt
  rcases Nat.eq_zero_or_pos k with rfl | hk
  · have hcore := divCore_two (k := 0) (e := -1074) hm hlt (by omega)
    have hhalf : halfEven m < 2 ^ 53 := by
      rw [halfEven]
      split <;> omega
    have hround := roundWithAccuracy_least (m := m <<< 51 / 2 ^ 52)
      (accuracyOfFraction (m <<< 51 % 2 ^ 52) (2 ^ 52)) (by rw [Nat.shiftLeft_eq]; omega)
      (by rwa [roundToNearestEven_half]) s
    rw [roundToNearestEven_half] at hround
    refine ⟨halfEven m, 0, ⟨hhalf, .inr rfl, by decide⟩, ?_, ?_⟩
    · rw [Nat.pow_zero, Nat.mul_one, Nat.mul_one]
    · rw [unpacked_of_pos hm, unpacked_of_pos (by decide), UnpackedFloat.div, hcore, hsign]
      exact hround
  · have hn := h.normalized.resolve_right (by omega)
    have hle : 52 ≤ m.log2 := (Nat.le_log2 (Nat.ne_of_gt hm)).mpr hn
    obtain ⟨j, hj⟩ : ∃ j, j = min 1 (k - 1) := ⟨_, rfl⟩
    have hcore := divCore_two (k := k) (e := ((k - 1 : Nat) : Int) - 1074 - j) hm hlt (by omega)
    have hshift : ((k : Int) - 1023 - (((k - 1 : Nat) : Int) - 1074 - j)).toNat = 52 + j := by omega
    have hmantissa : m <<< (52 + j) = m * 2 ^ j * 2 ^ 52 := by
      rw [Nat.shiftLeft_eq, Nat.add_comm, Nat.pow_add, Nat.mul_assoc]
    rw [hshift, hmantissa, Nat.mul_div_cancel _ (by decide), Nat.mul_mod_left] at hcore
    refine ⟨m, k - 1, ⟨hlt, .inl hn, by have := h.le; omega⟩, ?_, ?_⟩
    · rw [← halfEven_two_mul (m * 2 ^ (k - 1))]
      congr 1
      conv_rhs => rw [show k = k - 1 + 1 by omega, Nat.pow_succ]
      ring
    · rw [unpacked_of_pos hm, unpacked_of_pos (by decide), unpacked_of_pos hm, UnpackedFloat.div,
        hcore, hsign]
      exact roundWithAccuracy_eq hm hlt (.inl hn) s j

/-- Half of a double of so many units. -/
theorem Counts.half (h : Counts x (n : Nat)) : Counts (x / 2) (halfEven n : Nat) := by
  obtain ⟨s, m, k, hx, hn⟩ := h.exists_hasParts
  have habs : n = m * 2 ^ k := by
    have := congrArg Int.natAbs hn
    rwa [natAbs_apply, Int.natAbs_natCast, Int.natAbs_natCast] at this
  have hmodel : (x / 2).toModel = Float.Model.pack (UnpackedFloat.div Format.binary64
      (unpacked s m k) (unpacked .positive (2 ^ 52) 1023)) := by
    rw [← hx.unpack_eq, ← hasParts_two.unpack_eq]
    rfl
  rcases Nat.eq_zero_or_pos m with rfl | hm
  · have hdiv : UnpackedFloat.div Format.binary64 (unpacked s 0 k)
        (unpacked .positive (2 ^ 52) 1023) = unpacked s 0 0 := by
      cases s <;> rfl
    have hzero : n = 0 := by rw [habs, Nat.zero_mul]
    have hcounts := (hasParts_of_pack fits_zero (hdiv ▸ hmodel)).counts
    rw [apply_zero] at hcounts
    rwa [hzero]
  · obtain ⟨m', k', hfits, hv, hdiv⟩ := div_two_unpacked (s := s) hm hx.fits
    have hcounts := (hasParts_of_pack hfits (hdiv ▸ hmodel)).counts
    rw [hv, ← habs] at hcounts
    cases s with
    | positive => exact hcounts
    | negative =>
      have hpos := Nat.mul_pos hm (Nat.two_pow_pos k)
      have hn : (n : Int) = -((m * 2 ^ k : Nat) : Int) := hn
      omega

/-! ### Sizes and comparisons -/

theorem Counts.abs (h : Counts x a) : Counts x.abs a.natAbs := by
  obtain ⟨s, m, k, hx, rfl⟩ := h.exists_hasParts
  have habs : (unpacked s m k).abs = unpacked .positive m k := by
    rw [unpacked, unpacked]
    split <;> rfl
  have hparts : HasParts x.abs .positive m k := by
    refine hasParts_of_pack hx.fits ?_
    rw [← habs, ← hx.unpack_eq]
    rfl
  rw [natAbs_apply, Int.natAbs_natCast]
  exact hparts.counts

/-- A larger scale goes with a larger size, because a significand of that scale is normalized. -/
theorem size_lt_of_scale_lt (hx : Fits m k) (hy : Fits n l) (h : k < l) :
    m * 2 ^ k < n * 2 ^ l := by
  have hnorm := hy.normalized.resolve_right (by omega)
  calc m * 2 ^ k < 2 ^ 53 * 2 ^ k := Nat.mul_lt_mul_of_pos_right hx.lt (Nat.two_pow_pos k)
    _ = 2 ^ 52 * 2 ^ (k + 1) := by rw [Nat.pow_succ 2 k]; omega
    _ ≤ n * 2 ^ l := Nat.mul_le_mul hnorm (Nat.pow_le_pow_right (by decide) h)

theorem compare_mul_two_pow (m n k : Nat) :
    compare ((m * 2 ^ k : Nat) : Int) (n * 2 ^ k : Nat) = compare m n := by
  have hpos := Nat.two_pow_pos k
  rcases Nat.lt_trichotomy m n with h | rfl | h
  · rw [Nat.compare_eq_lt.mpr h, Int.compare_eq_lt]
    exact Int.ofNat_lt.mpr (Nat.mul_lt_mul_of_pos_right h hpos)
  · rw [Nat.compare_eq_eq.mpr rfl, Int.compare_eq_eq]
  · rw [Nat.compare_eq_gt.mpr h, Int.compare_eq_gt]
    exact Int.ofNat_lt.mpr (Nat.mul_lt_mul_of_pos_right h hpos)

theorem compare_scale_then (hx : Fits m k) (hy : Fits n l) :
    (compare ((k : Int) - 1074) ((l : Int) - 1074)).then (compare m n) =
      compare ((m * 2 ^ k : Nat) : Int) (n * 2 ^ l : Nat) := by
  rcases Nat.lt_trichotomy k l with h | rfl | h
  · rw [Int.compare_eq_lt.mpr (by omega),
      Int.compare_eq_lt.mpr (Int.ofNat_lt.mpr (size_lt_of_scale_lt hx hy h))]
    rfl
  · rw [Int.compare_eq_eq.mpr rfl, compare_mul_two_pow]
    rfl
  · rw [Int.compare_eq_gt.mpr (by omega),
      Int.compare_eq_gt.mpr (Int.ofNat_lt.mpr (size_lt_of_scale_lt hy hx h))]
    rfl

theorem compare_neg_neg (a b : Int) : compare (-a) (-b) = (compare a b).swap := by
  rcases Int.lt_trichotomy a b with h | rfl | h
  · rw [Int.compare_eq_lt.mpr h, Int.compare_eq_gt.mpr (by omega)]
    rfl
  · rw [Int.compare_eq_eq.mpr rfl, Int.compare_eq_eq.mpr rfl]
    rfl
  · rw [Int.compare_eq_gt.mpr h, Int.compare_eq_lt.mpr (by omega)]
    rfl

/-- Finite doubles are compared by their units. -/
theorem compare_unpacked (hx : Fits m k) (hy : Fits n l) :
    (unpacked s m k).compare (unpacked t n l) =
      some (compare (s.apply (m * 2 ^ k : Nat)) (t.apply (n * 2 ^ l : Nat))) := by
  have hpos {m k : Nat} (hm : 0 < m) : (0 : Int) < (m * 2 ^ k : Nat) :=
    Int.ofNat_lt.mpr (Nat.mul_pos hm (Nat.two_pow_pos k))
  rcases Nat.eq_zero_or_pos m with rfl | hm
  · rw [apply_zero, unpacked_zero]
    rcases Nat.eq_zero_or_pos n with rfl | hn
    · rw [apply_zero, unpacked_zero]
      rfl
    · have hlt := hpos (k := l) hn
      rw [unpacked_of_pos hn]
      cases t with
      | positive => exact congrArg some (Int.compare_eq_lt.mpr hlt).symm
      | negative => exact congrArg some (Int.compare_eq_gt.mpr (Int.neg_neg_of_pos hlt)).symm
  · have hlt := hpos (k := k) hm
    rw [unpacked_of_pos hm]
    rcases Nat.eq_zero_or_pos n with rfl | hn
    · rw [apply_zero, unpacked_zero]
      cases s with
      | positive => exact congrArg some (Int.compare_eq_gt.mpr hlt).symm
      | negative => exact congrArg some (Int.compare_eq_lt.mpr (Int.neg_neg_of_pos hlt)).symm
    · have hlt' := hpos (k := l) hn
      rw [unpacked_of_pos hn]
      cases s with
      | positive =>
        cases t with
        | positive => exact congrArg some (compare_scale_then hx hy)
        | negative =>
          have hneg := Int.lt_trans (Int.neg_neg_of_pos hlt') hlt
          exact congrArg some (Int.compare_eq_gt.mpr hneg).symm
      | negative =>
        cases t with
        | positive =>
          have hneg := Int.lt_trans (Int.neg_neg_of_pos hlt) hlt'
          exact congrArg some (Int.compare_eq_lt.mpr hneg).symm
        | negative =>
          exact congrArg some
            ((congrArg Ordering.swap (compare_scale_then hx hy)).trans (compare_neg_neg _ _).symm)

theorem Counts.compare (hx : Counts x a) (hy : Counts y b) :
    x.toModel.unpack.compare y.toModel.unpack = some (compare a b) := by
  obtain ⟨s, m, k, hparts, rfl⟩ := hx.exists_hasParts
  obtain ⟨t, n, l, hparts', rfl⟩ := hy.exists_hasParts
  rw [hparts.unpack_eq, hparts'.unpack_eq]
  exact compare_unpacked hparts.fits hparts'.fits

theorem Counts.le_iff (hx : Counts x a) (hy : Counts y b) : x ≤ y ↔ a ≤ b := by
  change decide (x.toModel.unpack.le y.toModel.unpack = true) = true ↔ a ≤ b
  rw [decide_eq_true_iff, UnpackedFloat.le, hx.compare hy]
  exact Int.isLE_compare

theorem Counts.lt_iff (hx : Counts x a) (hy : Counts y b) : x < y ↔ a < b := by
  change decide (x.toModel.unpack.lt y.toModel.unpack = true) = true ↔ a < b
  rw [decide_eq_true_iff, UnpackedFloat.lt, hx.compare hy, beq_iff_eq, Option.some.injEq]
  exact Int.compare_eq_lt

theorem Counts.beq_iff (hx : Counts x a) (hy : Counts y b) : (x == y) = true ↔ a = b := by
  change x.toModel.unpack.beq y.toModel.unpack = true ↔ a = b
  rw [UnpackedFloat.beq, hx.compare hy, beq_iff_eq, Option.some.injEq]
  exact Int.compare_eq_eq

theorem counts_zero : Counts 0 0 := by
  have hparts : HasParts 0 .positive 0 0 := ⟨fits_zero, by decide +kernel⟩
  exact hparts.counts

end FormulaMachine.Number
