import FormulaMachine.Function
import FormulaMachine.Proofs.Number.Arithmetic

/-!
The remainder of finite doubles. It is the exact one, but for odd divisors: half of such a divisor
is no whole number of units, and one that is taken instead may come up as what is left.
-/
namespace FormulaMachine.Number

/-- `n` is the whole number next to the quotient of `a` and `b`, of two such the even one. -/
def Nearest (n a b : Int) : Prop :=
  2 * (a - n * b).natAbs ≤ b.natAbs ∧ (2 * (a - n * b).natAbs = b.natAbs → n % 2 = 0)

/-- An odd `b` has no whole half. What is left of `a` is next to it and is treated like a half,
though it is a little less than one, with an odd quotient, or a little more, with an even one. -/
def Misrounds (a b : Nat) : Prop :=
  (b % 4 = 1 ∧ 2 * (a % b) + 1 = b ∧ a / b % 2 = 1) ∨
    (b % 4 = 3 ∧ 2 * (a % b) = b + 1 ∧ a / b % 2 = 0)

instance (a b : Nat) : Decidable (Misrounds a b) :=
  inferInstanceAs (Decidable ((_ ∧ _ ∧ _) ∨ (_ ∧ _ ∧ _)))

/-- The remainder of whole numbers that is at most the half that is taken of the divisor. -/
def nearestRemainder (a b : Nat) : Int :=
  if halfEven b < a % b ∨ (a % b = halfEven b ∧ a / b % 2 = 1) then ((a % b : Nat) : Int) - b
  else (a % b : Nat)

section
variable {a b : Nat} {n x y : Int}

theorem nearest_neg_left : Nearest (-n) (-x) y ↔ Nearest n x y := by
  have h : -x - -n * y = -(x - n * y) := by rw [Int.neg_mul]; omega
  rw [Nearest, Nearest, h, Int.natAbs_neg]
  omega

theorem nearest_neg_right : Nearest (-n) x (-y) ↔ Nearest n x y := by
  rw [Nearest, Nearest, Int.neg_mul_neg, Int.natAbs_neg]
  omega

/-- The half is a whole one of an even number only. -/
theorem halfEven_cases (b : Nat) : (b % 2 = 0 ∧ 2 * halfEven b = b) ∨
    (b % 4 = 1 ∧ 2 * halfEven b + 1 = b) ∨ (b % 4 = 3 ∧ 2 * halfEven b = b + 1) := by
  rw [halfEven]
  split <;> omega

/-- The parity of the quotient shows in what is left of twice the divisor. -/
theorem mod_two_mul (a b : Nat) : a % (2 * b) = a % b + b * (a / b % 2) := by
  rw [Nat.mul_comm 2 b, Nat.mod_mul]

/-- The remainder leaves a multiple of the divisor, that of the nearest whole number unless it
misrounds. -/
theorem exists_nearest (hb : 0 < b) (a : Nat) : ∃ n : Int, nearestRemainder a b = a - n * b ∧
    2 * (nearestRemainder a b).natAbs ≤ b + 1 ∧ (Nearest n a b ↔ ¬ Misrounds a b) := by
  have hlt := Nat.mod_lt a hb
  have hhalf := halfEven_cases b
  have hdiv : ((a / b : Nat) : Int) * b + (a % b : Nat) = a := by
    rw [← Int.natCast_mul, ← Int.natCast_add, Nat.mul_comm, Nat.div_add_mod]
  have hfloor : (a : Int) - (a / b : Nat) * b = (a % b : Nat) := by omega
  have hceil : (a : Int) - ((a / b : Nat) + 1) * b = (a % b : Nat) - b := by
    rw [Int.add_mul]
    omega
  clear hdiv
  rw [nearestRemainder]
  by_cases h : halfEven b < a % b ∨ (a % b = halfEven b ∧ a / b % 2 = 1)
  · refine ⟨(a / b : Nat) + 1, ?_, ?_, ?_⟩
    · rw [if_pos h, hceil]
    · rw [if_pos h]
      omega
    · rw [Nearest, hceil, Misrounds]
      omega
  · refine ⟨(a / b : Nat), ?_, ?_, ?_⟩
    · rw [if_neg h, hfloor]
    · rw [if_neg h]
      omega
    · rw [Nearest, hfloor, Misrounds]
      omega

/-- The sign of the divisor goes to the whole number. -/
theorem exists_nearest_right (hy : y ≠ 0) (a : Nat) : ∃ n : Int,
    nearestRemainder a y.natAbs = a - n * y ∧
      2 * (nearestRemainder a y.natAbs).natAbs ≤ y.natAbs + 1 ∧
      (Nearest n a y ↔ ¬ Misrounds a y.natAbs) := by
  obtain ⟨n, hn, hle, hnear⟩ := exists_nearest (Int.natAbs_pos.mpr hy) a
  by_cases hneg : y < 0
  · have hsign : (y.natAbs : Int) = -y := by omega
    rw [hsign] at hn hnear
    refine ⟨-n, ?_, hle, ?_⟩
    · rw [hn, Int.neg_mul_comm]
    · rw [← hnear, ← nearest_neg_right, Int.neg_neg]
  · have hsign : (y.natAbs : Int) = y := by omega
    rw [hsign] at hn hnear
    exact ⟨n, hn, hle, hnear⟩

/-- The sign of the dividend goes to the whole number and to the remainder. -/
theorem exists_nearest_left (hy : y ≠ 0) (x : Int) : ∃ n : Int,
    (if x < 0 then -nearestRemainder x.natAbs y.natAbs else nearestRemainder x.natAbs y.natAbs) =
        x - n * y ∧
      2 * (nearestRemainder x.natAbs y.natAbs).natAbs ≤ y.natAbs + 1 ∧
      (Nearest n x y ↔ ¬ Misrounds x.natAbs y.natAbs) := by
  obtain ⟨n, hn, hle, hnear⟩ := exists_nearest_right hy x.natAbs
  by_cases hneg : x < 0
  · have hsign : (x.natAbs : Int) = -x := by omega
    rw [hsign] at hn hnear
    refine ⟨-n, ?_, hle, ?_⟩
    · rw [if_pos hneg, hn, Int.neg_mul]
      omega
    · rw [← hnear, ← nearest_neg_left, Int.neg_neg]
  · have hsign : (x.natAbs : Int) = x := by omega
    rw [hsign] at hn hnear
    refine ⟨n, ?_, hle, hnear⟩
    rw [if_neg hneg, hn]

theorem isSize_of_dvd {k n : Nat} (hd : 2 ^ k ∣ n) (hlt : n < 2 ^ 53 * 2 ^ k) (hk : k ≤ 2045) :
    IsSize n := by
  obtain ⟨m, rfl⟩ := hd
  rw [Nat.mul_comm (2 ^ k)] at hlt ⊢
  exact ⟨m, k, Nat.lt_of_mul_lt_mul_right hlt, hk, rfl⟩

theorem IsSize.exists_dvd {n : Nat} (h : IsSize n) :
    ∃ k, k ≤ 2045 ∧ 2 ^ k ∣ n ∧ n < 2 ^ 53 * 2 ^ k := by
  obtain ⟨m, k, hm, hk, rfl⟩ := h
  exact ⟨k, hk, Nat.dvd_mul_left _ _, Nat.mul_lt_mul_of_pos_right hm (Nat.two_pow_pos k)⟩

theorem isSize_mod (ha : IsSize a) (hb : IsSize b) : IsSize (a % b) := by
  obtain ⟨i, hi, hda, hlta⟩ := ha.exists_dvd
  obtain ⟨j, hj, hdb, hltb⟩ := hb.exists_dvd
  have hle := Nat.mod_le a b
  rcases Nat.lt_or_ge i j with hij | hij
  · have hd := Nat.dvd_trans (Nat.pow_dvd_pow 2 (Nat.le_of_lt hij)) hdb
    exact isSize_of_dvd ((Nat.dvd_mod_iff hd).mpr hda) (Nat.lt_of_le_of_lt hle hlta) hi
  · have hd := (Nat.dvd_mod_iff hdb).mpr (Nat.dvd_trans (Nat.pow_dvd_pow 2 hij) hda)
    rcases Nat.eq_zero_or_pos b with rfl | hpos
    · rwa [Nat.mod_zero]
    · exact isSize_of_dvd hd (Nat.lt_trans (Nat.mod_lt a hpos) hltb) hj

/-- What is missing to the divisor is the size of a double again, if it is not more than half. Of
the weights of the two last bits the smaller counts, and what is missing is below the argument that
has it. If that is the dividend, the divisor is even, and its half is a whole one. -/
theorem isSize_sub_mod (ha : IsSize a) (hb : IsSize b) (h : halfEven b ≤ a % b) :
    IsSize (b - a % b) := by
  obtain ⟨i, hi, hda, hlta⟩ := ha.exists_dvd
  obtain ⟨j, hj, hdb, hltb⟩ := hb.exists_dvd
  have hle := Nat.mod_le a b
  rcases Nat.lt_or_ge i j with hij | hij
  · have heven : b % 2 = 0 :=
      Nat.mod_eq_zero_of_dvd (Nat.dvd_trans (Nat.pow_dvd_pow 2 (by omega : 1 ≤ j)) hdb)
    have hhalf := halfEven_cases b
    have hd := Nat.dvd_trans (Nat.pow_dvd_pow 2 (Nat.le_of_lt hij)) hdb
    exact isSize_of_dvd (Nat.dvd_sub hd ((Nat.dvd_mod_iff hd).mpr hda)) (by omega) hi
  · have hd := (Nat.dvd_mod_iff hdb).mpr (Nat.dvd_trans (Nat.pow_dvd_pow 2 hij) hda)
    exact isSize_of_dvd (Nat.dvd_sub hdb hd) (by omega) hj

end

section
variable {x y r : Float} {a b : Nat} {odd : Bool}

theorem Counts.isSize (h : Counts x a) : IsSize a := by
  have hunits := natAbs_units x
  rw [h.2, Int.natAbs_natCast] at hunits
  exact hunits ▸ isSize_magnitude h.1

theorem Counts.magnitude_eq (h : Counts x a) : magnitude x = a := by
  rw [← natAbs_units, h.2, Int.natAbs_natCast]

/-- Taking away the divisor as often as it goes in is exact. -/
theorem Counts.modulo (hx : Counts x a) (hy : Counts y b) (hb : 0 < b) :
    Counts (modulo x y) (a % b : Nat) := by
  have hzero : (y == 0) = false := by
    rw [← Bool.not_eq_true, hy.beq_iff counts_zero]
    omega
  have hc := counts_ofMagnitude (isSize_mod hx.isSize hy.isSize)
  simp only [Number.modulo, hzero, not_isInf hx.1, not_isNaN hx.1, not_isNaN hy.1, not_isInf hy.1,
    Bool.or_false, Bool.false_eq_true, if_false, hx.magnitude_eq, hy.magnitude_eq]
  split
  · next hneg =>
    have ha : a = 0 := by
      have hunits := hx.2
      rw [units, if_pos hneg] at hunits
      omega
    have hc := hc.neg
    rw [ha, Nat.zero_mod] at hc ⊢
    exact hc
  · exact hc

/-- A divisor that cannot be doubled is doubled to an infinite one, and twice it does not go into
any double. -/
theorem Counts.modulo_two_mul (hx : Counts x a) (hy : Counts y b) (hb : 0 < b) :
    Counts (Number.modulo x (2 * y)) (a % (2 * b) : Nat) := by
  rcases hy.two_mul with htwice | ⟨hinf, hlarge⟩
  · have htwice : Counts (2 * y) (2 * b : Nat) := by exact_mod_cast htwice
    exact hx.modulo htwice (by omega)
  · have hlt := hlarge a hx.isSize
    rw [Nat.mod_eq_of_lt (by omega)]
    simpa only [Number.modulo, beq_zero_of_isInf hinf, isNaN_of_isInf hinf, not_isInf hx.1,
      not_isNaN hx.1, hinf, Bool.or_false, Bool.false_eq_true, if_false, if_true] using hx

/-- What is left of twice the divisor tells what is left of the divisor and the parity of the
quotient. -/
theorem Counts.parity (hr : Counts r (a % (2 * b) : Nat)) (hy : Counts y b) (ha : IsSize a)
    (hb : 0 < b) : ∃ r' odd, (if y ≤ r then (r - y, true) else (r, false)) = (r', odd) ∧
      Counts r' (a % b : Nat) ∧ (odd = true ↔ a / b % 2 = 1) := by
  have hlt := Nat.mod_lt a hb
  have hle := hy.le_iff hr
  rw [mod_two_mul] at hr hle
  rcases Nat.mod_two_eq_zero_or_one (a / b) with hq | hq
  · rw [hq, Nat.mul_zero, Nat.add_zero] at hr hle
    exact ⟨r, false, if_neg (mt hle.mp (by omega)), hr, by simp [hq]⟩
  · rw [hq, Nat.mul_one] at hr hle
    have hdifference : ((a % b + b : Nat) : Int) - b = (a % b : Nat) := by
      rw [Int.natCast_add, Int.add_sub_cancel]
    have hsub := hr.sub hy (by
      rw [hdifference, Int.natAbs_natCast]
      exact isSize_mod ha hy.isSize)
    rw [hdifference] at hsub
    exact ⟨r - y, true, if_pos (hle.mpr (by omega)), hsub, by simp [hq]⟩

/-- The half that is taken of the divisor decides, and the divisor can be taken away once more. -/
theorem Counts.nearest (hr : Counts r (a % b : Nat)) (hy : Counts y b) (ha : IsSize a) (hb : 0 < b)
    (hodd : odd = true ↔ a / b % 2 = 1) :
    Counts (if y / 2 < r || r == y / 2 && odd then r - y else r) (nearestRemainder a b) := by
  have hhalf := hy.half
  have hiff : (y / 2 < r || r == y / 2 && odd) = true ↔
      halfEven b < a % b ∨ (a % b = halfEven b ∧ a / b % 2 = 1) := by
    rw [Bool.or_eq_true, Bool.and_eq_true, decide_eq_true_iff, hhalf.lt_iff hr, hr.beq_iff hhalf,
      hodd, Int.ofNat_lt, Int.ofNat_inj]
  rw [nearestRemainder]
  by_cases h : halfEven b < a % b ∨ (a % b = halfEven b ∧ a / b % 2 = 1)
  · rw [if_pos h, if_pos (hiff.mpr h)]
    refine hr.sub hy ?_
    have hlt := Nat.mod_lt a hb
    rw [show (((a % b : Nat) : Int) - b).natAbs = b - a % b by omega]
    exact isSize_sub_mod ha hy.isSize (by omega)
  · rw [if_neg h, if_neg (mt hiff.mp h)]
    exact hr

end

theorem counts_remainder {x y : Float} (hx : x.isFinite = true) (hy : y.isFinite = true)
    (hne : units y ≠ 0) : Counts (remainder x y)
      (if units x < 0 then -nearestRemainder (units x).natAbs (units y).natAbs
        else nearestRemainder (units x).natAbs (units y).natAbs) := by
  have hcx : Counts x (units x) := ⟨hx, rfl⟩
  have hcy : Counts y (units y) := ⟨hy, rfl⟩
  have hzero : (y == 0) = false := by
    rw [← Bool.not_eq_true, hcy.beq_iff counts_zero]
    exact hne
  have hpos : 0 < (units y).natAbs := Int.natAbs_pos.mpr hne
  have htwice := hcx.abs.modulo_two_mul hcy.abs hpos
  obtain ⟨r, odd, hstep, hr, hodd⟩ := htwice.parity hcy.abs hcx.abs.isSize hpos
  have hc := hr.nearest hcy.abs hcx.abs.isSize hpos hodd
  simp only [remainder, hzero, not_isInf hx, not_isNaN hx, not_isNaN hy, not_isInf hy,
    Bool.or_false, Bool.false_eq_true, if_false, hstep, hcx.lt_iff counts_zero]
  split
  · exact hc.neg
  · exact hc

end FormulaMachine.Number

namespace FormulaMachine.BinaryFunction

open Number

/-- The remainder of finite doubles is finite, and it is what a whole multiple of the divisor
leaves. That is the multiple by the whole number next to the quotient, of two such the even one, but
where the remainder misrounds. It is half the divisor at the most, or half a unit more. -/
theorem mod_nearest_iff {x y : Float} (hx : x.isFinite = true) (hy : y.isFinite = true)
    (hne : (y == 0) = false) :
    (mod.apply x y).isFinite = true ∧
    ∃ n : Int, units (mod.apply x y) = units x - n * units y ∧
      2 * (units (mod.apply x y)).natAbs ≤ (units y).natAbs + 1 ∧
      (Nearest n (units x) (units y) ↔ ¬ Misrounds (magnitude x) (magnitude y)) := by
  have hcy : Counts y (units y) := ⟨hy, rfl⟩
  have hy₀ : units y ≠ 0 := by
    rwa [← Bool.not_eq_true, hcy.beq_iff counts_zero] at hne
  obtain ⟨hfinite, hunits⟩ := counts_remainder hx hy hy₀
  obtain ⟨n, hn, hle, hnear⟩ := exists_nearest_left hy₀ (units x)
  rw [natAbs_units x, natAbs_units y] at hnear
  refine ⟨hfinite, n, hunits.trans hn, ?_, hnear⟩
  rw [show units (mod.apply x y) = _ from hunits]
  split
  · rwa [Int.natAbs_neg]
  · exact hle

/-- Five units leave one less than two times three. -/
theorem mod_nearest_iff_five :
    (Float.ofBits 5).isFinite = true ∧ (Float.ofBits 3).isFinite = true ∧
    (Float.ofBits 3 == 0) = false ∧ Nearest 2 5 3 ∧
    units (mod.apply (Float.ofBits 5) (Float.ofBits 3)) = 5 - 2 * 3 := by
  have hx : (Float.ofBits 5).isFinite = true := by decide +kernel
  have hy : (Float.ofBits 3).isFinite = true := by decide +kernel
  have hne : (Float.ofBits 3 == 0) = false := by decide +kernel
  obtain ⟨-, n, hn, -, hnear⟩ := mod_nearest_iff hx hy hne
  rw [show units (Float.ofBits 5) = 5 by decide +kernel,
    show units (Float.ofBits 3) = 3 by decide +kernel] at hn hnear
  have hnear : Nearest n 5 3 := hnear.mpr (by decide +kernel)
  obtain rfl : n = 2 := by
    have := hnear.1
    omega
  exact ⟨hx, hy, hne, hnear, hn⟩

/-- Two units leave all of two, though one less than one times three is next to them. -/
theorem mod_not_nearest : ¬ ∃ n : Int, Nearest n (units (Float.ofBits 2)) (units (Float.ofBits 3)) ∧
    units (mod.apply (Float.ofBits 2) (Float.ofBits 3)) =
      units (Float.ofBits 2) - n * units (Float.ofBits 3) := by
  have hx : units (Float.ofBits 2) = 2 := by decide +kernel
  have hy : units (Float.ofBits 3) = 3 := by decide +kernel
  have hr : units (mod.apply (Float.ofBits 2) (Float.ofBits 3)) = 2 := by decide +kernel
  rw [hx, hy, hr]
  rintro ⟨n, hn, h⟩
  rw [Nearest] at hn
  omega

end FormulaMachine.BinaryFunction
