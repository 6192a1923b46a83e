import Mathlib
import FormulaMachine.Number.Units

/-!
Doubles as words. A finite double is a sign, a significand and a scale, and these are what its word
is made of, so that taking a word apart and putting it together again changes nothing.
-/
namespace FormulaMachine.Number

open Float.Model (Format UnpackedFloat)
open Float.Model.UnpackedFloat

theorem toNat_unpackMantissa (w : BitVec 64) :
    (@unpackMantissa Format.binary64 w).toNat = w.toNat % 2 ^ 52 := by
  simp [unpackMantissa]

theorem toNat_unpackExponent (w : BitVec 64) :
    (@unpackExponent Format.binary64 w).toNat = w.toNat / 2 ^ 52 % 2 ^ 11 := by
  simp [unpackExponent, Nat.shiftRight_eq_div_pow]

theorem toNat_unpackSign (w : BitVec 64) :
    (@unpackSign Format.binary64 w).toNat = w.toNat / 2 ^ 63 := by
  have := w.isLt
  simp [unpackSign, Nat.shiftRight_eq_div_pow]
  omega

theorem toNat_packComponents (s : Sign) (e : BitVec 11) (m : BitVec 52) :
    (packComponents Format.binary64 s e m).toNat =
      s.toBitVec.toNat * 2 ^ 63 + e.toNat * 2 ^ 52 + m.toNat := by
  have hm := m.isLt
  have he := e.isLt
  change (s.toBitVec ++ e ++ m).toNat = _
  rw [BitVec.toNat_append, BitVec.toNat_append, ← Nat.shiftLeft_add_eq_or_of_lt he,
    ← Nat.shiftLeft_add_eq_or_of_lt hm]
  simp only [Nat.shiftLeft_eq]
  omega

/-- A significand and a scale that the fields of a double have room for. Only the least scale goes
with a significand that is not normalized. -/
structure Fits (m k : Nat) : Prop where
  lt : m < 2 ^ 53
  normalized : 2 ^ 52 ≤ m ∨ k = 0
  le : k ≤ 2045

/-- The double of the given sign, significand and scale, taken apart. -/
def unpacked (s : Sign) (m k : Nat) : UnpackedFloat :=
  if h : 0 < m then .finite s m (k - 1074) h else .zero s

/-- The word of the given sign, significand and scale. -/
def word (s : Sign) (m k : Nat) : Nat := s.toBitVec.toNat * 2 ^ 63 + k * 2 ^ 52 + m

variable {m k : Nat} {s : Sign}

theorem toNat_positive : Sign.positive.toBitVec.toNat = 0 := rfl

theorem toNat_negative : Sign.negative.toBitVec.toNat = 1 := rfl

theorem toNat_toBitVec_le (s : Sign) : s.toBitVec.toNat ≤ 1 := by cases s <;> decide

theorem toNat_pack (h : Fits m k) (s : Sign) :
    (pack Format.binary64 (unpacked s m k)).toNat = word s m k := by
  have hlt := h.lt
  have hle := h.le
  rw [unpacked]
  split
  · next hm =>
    have hbiased : ((k : Int) - 1074 + Format.binary64.exponentBias +
        Format.binary64.mantissaBitsWithoutImplicit).toNat = k + 1 := by
      change ((k : Int) - 1074 + 1023 + 52).toNat = k + 1
      omega
    simp only [pack, hbiased]
    rw [if_neg (by change ¬ 2048 ≤ k + 1 + 1; omega)]
    split
    · next hl =>
      have hl : m.log2 + 1 = 53 := hl
      have hge := Nat.log2_self_le (Nat.ne_of_gt hm)
      rw [show m.log2 = 52 by omega] at hge
      rw [toNat_packComponents, word]
      simp only [BitVec.toNat_ofNat]
      omega
    · next hl =>
      have hl : m.log2 + 1 ≠ 53 := hl
      have hsmall : m < 2 ^ 52 := by
        rcases Nat.lt_or_ge m (2 ^ 52) with hm | hge
        · exact hm
        · exact absurd ((Nat.log2_eq_iff (Nat.ne_of_gt hm)).mpr ⟨hge, hlt⟩) (by omega)
      have hk : k = 0 := h.normalized.resolve_left (by omega)
      rw [toNat_packComponents, word, hk]
      simp only [BitVec.toNat_ofNat]
      omega
  · next hm =>
    have hm : m = 0 := by omega
    have hk : k = 0 := h.normalized.resolve_left (by omega)
    subst hm hk
    cases s <;> rfl

theorem unpack_eq (h : Fits m k) {w : BitVec 64} (hw : w.toNat = word s m k) :
    unpack Format.binary64 w = unpacked s m k := by
  have hlt := h.lt
  have hle := h.le
  have hnorm := h.normalized
  have hs := toNat_toBitVec_le s
  rw [word] at hw
  have hmantissa := toNat_unpackMantissa w
  have hexponent := toNat_unpackExponent w
  have hsign : Sign.ofBitVec (@unpackSign Format.binary64 w) = s := by
    have hb : @unpackSign Format.binary64 w = s.toBitVec := by
      apply BitVec.eq_of_toNat_eq
      rw [toNat_unpackSign, hw]
      omega
    rw [hb]
    cases s <;> rfl
  simp only [unpack, hsign]
  have hones : @unpackExponent Format.binary64 w ≠ -1#11 := by
    intro he
    rw [he] at hexponent
    have hexponent : 2047 = w.toNat / 2 ^ 52 % 2 ^ 11 := hexponent
    omega
  rw [if_neg hones]
  by_cases hzero : @unpackExponent Format.binary64 w = 0#11
  · rw [hzero] at hexponent
    have hexponent : 0 = w.toNat / 2 ^ 52 % 2 ^ 11 := hexponent
    have hk : k = 0 := by omega
    have hm : (@unpackMantissa Format.binary64 w).toNat = m := by omega
    rw [if_pos hzero]
    split
    · next hm₀ =>
      rw [hm₀] at hm
      have hm : 0 = m := hm
      rw [unpacked, dif_neg (by omega)]
    · next hm₀ =>
      have hpos : 0 < m := by
        apply Nat.pos_of_ne_zero
        rintro rfl
        exact hm₀ (BitVec.eq_of_toNat_eq hm)
      rw [unpacked, dif_pos hpos, UnpackedFloat.finite.injEq]
      refine ⟨rfl, hm, ?_⟩
      rw [hzero]
      change (0 : Int) - (1023 + 52) + 1 = k - 1074
      omega
  · have hne : (@unpackExponent Format.binary64 w).toNat ≠ 0 :=
      fun he => hzero (BitVec.eq_of_toNat_eq he)
    rw [if_neg hzero, unpacked, dif_pos (by omega), UnpackedFloat.finite.injEq]
    refine ⟨rfl, ?_, ?_⟩
    · rw [BitVec.toNat_append,
        ← Nat.shiftLeft_add_eq_or_of_lt (@unpackMantissa Format.binary64 w).isLt, hmantissa,
        Nat.shiftLeft_eq]
      change 1 * 2 ^ 52 + w.toNat % 2 ^ 52 = m
      omega
    · change ((@unpackExponent Format.binary64 w).toNat : Int) - (1023 + 52) = k - 1074
      omega

/-- A double that is made of the given sign, significand and scale. -/
structure HasParts (x : Float) (s : Sign) (m k : Nat) : Prop where
  fits : Fits m k
  toNat_toBits : x.toBits.toNat = word s m k

theorem exponentField_eq (x : Float) : exponentField x = x.toBits.toNat / 2 ^ 52 % 2 ^ 11 := by
  rw [exponentField, Nat.pow_eq, Nat.pow_eq]

theorem fractionField_eq (x : Float) : fractionField x = x.toBits.toNat % 2 ^ 52 := by
  rw [fractionField, Nat.pow_eq]

namespace HasParts

variable {x : Float}

theorem unpack_eq (h : HasParts x s m k) : x.toModel.unpack = unpacked s m k :=
  Number.unpack_eq h.fits h.toNat_toBits

theorem isFinite (h : HasParts x s m k) : x.isFinite = true := by
  change x.toModel.unpack.isFinite = true
  rw [h.unpack_eq, unpacked]
  split <;> rfl

theorem isNegative_eq (h : HasParts x s m k) : isNegative x = (s == .negative) := by
  have hword := h.toNat_toBits
  have hlt := h.fits.lt
  have hle := h.fits.le
  rw [word] at hword
  cases s with
  | positive =>
    rw [toNat_positive] at hword
    have : x.toBits.toNat / 2 ^ 63 = 0 := by omega
    simp only [isNegative, Nat.pow_eq, this]
    rfl
  | negative =>
    rw [toNat_negative] at hword
    have : x.toBits.toNat / 2 ^ 63 = 1 := by omega
    simp only [isNegative, Nat.pow_eq, this]
    rfl

theorem magnitude_eq (h : HasParts x s m k) : magnitude x = m * 2 ^ k := by
  have hword := h.toNat_toBits
  have hlt := h.fits.lt
  have hle := h.fits.le
  have hnorm := h.fits.normalized
  have hs := toNat_toBitVec_le s
  rw [word] at hword
  have hexponent := exponentField_eq x
  have hfraction := fractionField_eq x
  rw [magnitude, significand, scale]
  by_cases he : exponentField x = 0
  · have hk : exponentField x - 1 = k := by omega
    have hm : fractionField x = m := by omega
    rw [if_pos he, hk, hm, Nat.pow_eq]
  · have hk : exponentField x - 1 = k := by omega
    have hm : 2 ^ 52 + fractionField x = m := by omega
    rw [if_neg he, hk, Nat.pow_eq, Nat.pow_eq, hm]

theorem neg (h : HasParts x s m k) : HasParts (-x) (-s) m k where
  fits := h.fits
  toNat_toBits := by
    change (pack Format.binary64 x.toModel.unpack.neg).toNat = word (-s) m k
    have hneg : (unpacked s m k).neg = unpacked (-s) m k := by
      rw [unpacked, unpacked]
      split <;> rfl
    rw [h.unpack_eq, hneg, toNat_pack h.fits]

end HasParts

/-- Every finite double has such parts. -/
theorem exists_hasParts {x : Float} (h : x.isFinite = true) : ∃ s m k, HasParts x s m k := by
  have hlt : x.toBits.toNat < 2 ^ 64 := x.toBits.toNat_lt
  have hexponent := exponentField_eq x
  have hfraction := fractionField_eq x
  have hne : exponentField x ≠ 2047 := by
    intro he
    have hones : @unpackExponent Format.binary64 x.toBits.toBitVec = -1#11 :=
      BitVec.eq_of_toNat_eq ((toNat_unpackExponent _).trans (hexponent.symm.trans he))
    have hfinite : (unpack Format.binary64 x.toBits.toBitVec).isFinite = true := h
    rw [unpack, if_pos hones] at hfinite
    split at hfinite <;> cases hfinite
  obtain ⟨s, hs⟩ : ∃ s : Sign, s.toBitVec.toNat = x.toBits.toNat / 2 ^ 63 := by
    rcases (show x.toBits.toNat / 2 ^ 63 = 0 ∨ x.toBits.toNat / 2 ^ 63 = 1 by omega) with hb | hb
    · exact ⟨.positive, hb.symm⟩
    · exact ⟨.negative, hb.symm⟩
  refine ⟨s, significand x, scale x, ?_⟩
  rw [significand, scale, Nat.pow_eq]
  by_cases he : exponentField x = 0
  · rw [if_pos he]
    refine ⟨⟨by omega, by omega, by omega⟩, ?_⟩
    rw [word, hs]
    omega
  · rw [if_neg he]
    refine ⟨⟨by omega, by omega, by omega⟩, ?_⟩
    rw [word, hs]
    omega

/-- A double is made of the bits of its word. -/
theorem hasParts_ofBits {w : UInt64} (h : Fits m k) (hw : w.toNat = word s m k) :
    HasParts (Float.ofBits w) s m k where
  fits := h
  toNat_toBits := by
    have hbits : (Float.ofBits w).toBits.toNat =
        (pack Format.binary64 (unpack Format.binary64 w.toBitVec)).toNat := rfl
    rw [hbits, unpack_eq h hw, toNat_pack h]

end FormulaMachine.Number
