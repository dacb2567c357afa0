import Resumable.Proofs.Decimal.Rounding

/-!
This module contains what the bits of a double stand for: a sign, a coefficient and an exponent, from
which the bits can be told again.
-/

namespace Resumable.Decimal

open Float.Model (Format UnpackedFloat)
open Float.Model.UnpackedFloat (Sign)

section

variable (v : BitVec Format.binary64.numBits)

theorem unpackMantissa_toNat : (UnpackedFloat.unpackMantissa v).toNat = v.toNat % 2 ^ 52 := by
  simp [UnpackedFloat.unpackMantissa]

theorem unpackExponent_toNat
    : (UnpackedFloat.unpackExponent v).toNat = v.toNat / 2 ^ 52 % 2 ^ 11 := by
  simp [UnpackedFloat.unpackExponent, Nat.shiftRight_eq_div_pow]

theorem unpackSign_toNat : (UnpackedFloat.unpackSign v).toNat = v.toNat / 2 ^ 63 := by
  have hlt : v.toNat < 2 ^ 64 := v.isLt
  simp only [UnpackedFloat.unpackSign, BitVec.toNat_cast, BitVec.extractLsb_toNat,
    Nat.shiftRight_eq_div_pow]
  omega

theorem ofBitVec_toBitVec (s : Sign) : Sign.ofBitVec s.toBitVec = s := by
  cases s <;> rfl

theorem unpack_bits
    : UnpackedFloat.unpack .binary64 v =
        if v.toNat / 2 ^ 52 % 2 ^ 11 = 2 ^ 11 - 1 then
          if v.toNat % 2 ^ 52 = 0 then .infinity (.ofBitVec (UnpackedFloat.unpackSign v))
          else .notANumber
        else if v.toNat / 2 ^ 52 % 2 ^ 11 = 0 then
          if h : v.toNat % 2 ^ 52 = 0 then .zero (.ofBitVec (UnpackedFloat.unpackSign v))
          else .finite (.ofBitVec (UnpackedFloat.unpackSign v)) (v.toNat % 2 ^ 52) (-1074)
            (Nat.pos_of_ne_zero h)
        else .finite (.ofBitVec (UnpackedFloat.unpackSign v)) (2 ^ 52 + v.toNat % 2 ^ 52)
          ((v.toNat / 2 ^ 52 % 2 ^ 11 : Nat) - 1075) (by omega) := by
  have hfield := unpackExponent_toNat v
  have hfraction := unpackMantissa_toNat v
  have hbias : (Format.binary64.exponentBias : Int) = 1023 := rfl
  have hones : UnpackedFloat.unpackExponent v = -1#11 ↔
      v.toNat / 2 ^ 52 % 2 ^ 11 = 2 ^ 11 - 1 := by
    rw [← BitVec.toNat_inj, hfield]
    rfl
  have hnone : UnpackedFloat.unpackExponent v = 0#11 ↔ v.toNat / 2 ^ 52 % 2 ^ 11 = 0 := by
    rw [← BitVec.toNat_inj, hfield]
    rfl
  have hempty : UnpackedFloat.unpackMantissa v = 0#52 ↔ v.toNat % 2 ^ 52 = 0 := by
    rw [← BitVec.toNat_inj, hfraction]
    rfl
  have hleading : (1#1 ++ UnpackedFloat.unpackMantissa v).toNat = 2 ^ 52 + v.toNat % 2 ^ 52 := by
    rw [BitVec.toNat_append, ← Nat.shiftLeft_add_eq_or_of_lt (BitVec.isLt _), hfraction]
    rfl
  unfold UnpackedFloat.unpack
  simp only [hones, hnone, hempty, hleading, hfield, hfraction, hbias]
  split
  . rfl
  . split
    . next hnone =>
      rw [hnone]
      rfl
    . congr 1

end

theorem packComponents_toNat (s : Sign) (e : BitVec 11) (m : BitVec 52)
    : (UnpackedFloat.packComponents .binary64 s e m).toNat
        = s.toBitVec.toNat * 2 ^ 63 + e.toNat * 2 ^ 52 + m.toNat := by
  unfold UnpackedFloat.packComponents
  rw [BitVec.toNat_append, ← Nat.shiftLeft_add_eq_or_of_lt m.isLt, BitVec.toNat_append,
    ← Nat.shiftLeft_add_eq_or_of_lt e.isLt]
  simp only [Nat.shiftLeft_eq]
  omega

theorem pack_toNat (s : Sign) {m : Nat} {e : Int} (hpos : 0 < m) (hnarrow : m < 2 ^ 53)
    (hsmall : -1074 ≤ e) (hlarge : e ≤ 971)
    : (UnpackedFloat.pack .binary64 (.finite s m e hpos)).toNat
        = s.toBitVec.toNat * 2 ^ 63 +
          if m < 2 ^ 52 then m else (e + 1075).toNat * 2 ^ 52 + (m - 2 ^ 52) := by
  have hbias : (Format.binary64.exponentBias : Int) = 1023 := rfl
  have hbits : Format.binary64.mantissaBits = 53 := rfl
  unfold UnpackedFloat.pack
  simp only [hbias, hbits]
  have hfield : (e + 1023 + (52 : Nat)).toNat = (e + 1075).toNat := by omega
  rw [if_neg (by omega)]
  by_cases hsub : m < 2 ^ 52
  . have hlog : m.log2 < 52 := (Nat.log2_lt hpos.ne').2 hsub
    rw [if_neg (by omega), if_pos hsub, packComponents_toNat, BitVec.toNat_ofNat]
    simp
    omega
  . have hlog : m.log2 < 53 := (Nat.log2_lt hpos.ne').2 hnarrow
    have hlog' : 52 ≤ m.log2 := (Nat.le_log2 hpos.ne').2 (not_lt.1 hsub)
    rw [if_pos (by omega), if_neg hsub, packComponents_toNat, BitVec.toNat_ofNat,
      BitVec.toNat_ofNat, hfield]
    omega

theorem Binary.Canonical.unpack_pack {b : Binary} (hb : b.Canonical) (hlarge : b.expo ≤ 971)
    (s : Sign)
    : (Float.Model.pack (.finite s b.coeff b.expo hb.positive)).unpack
        = .finite s b.coeff b.expo hb.positive := by
  have hbits := pack_toNat s hb.positive hb.narrow hb.smallest hlarge
  have hsign : s.toBitVec.toNat < 2 := s.toBitVec.isLt
  have hnarrow := hb.narrow
  have hsmallest := hb.smallest
  show UnpackedFloat.unpack .binary64
    (UnpackedFloat.pack .binary64 (.finite s b.coeff b.expo hb.positive)) = _
  generalize UnpackedFloat.pack .binary64 (.finite s b.coeff b.expo hb.positive) = v at *
  have hs : UnpackedFloat.unpackSign v = s.toBitVec := by
    refine BitVec.eq_of_toNat_eq ((unpackSign_toNat v).trans ?_)
    split at hbits <;> omega
  rw [unpack_bits, hs, ofBitVec_toBitVec]
  by_cases hsub : b.coeff < 2 ^ 52
  . rw [if_pos hsub] at hbits
    have hexpo : b.expo = -1074 := hb.full.resolve_right (not_le.2 hsub)
    have hcoeff : v.toNat % 2 ^ 52 = b.coeff := by omega
    rw [if_neg (by omega), if_pos (by omega), dif_neg (by have := hb.positive; omega)]
    simp only [hcoeff, hexpo]
  . rw [if_neg hsub] at hbits
    have hcoeff : 2 ^ 52 + v.toNat % 2 ^ 52 = b.coeff := by omega
    have hexpo : ((v.toNat / 2 ^ 52 % 2 ^ 11 : Nat) : Int) - 1075 = b.expo := by omega
    rw [if_neg (by omega), if_neg (by omega)]
    simp only [hcoeff, hexpo]

def sign (x : Float) : Sign :=
  if isNegative x then .negative else .positive

def field (x : Float) : Nat :=
  x.toBits.toBitVec.toNat / 2 ^ 52 % 2 ^ 11

def fraction (x : Float) : Nat :=
  x.toBits.toBitVec.toNat % 2 ^ 52

section

variable {x : Float}

theorem isNegative_iff : isNegative x = true ↔ x.toBits.toBitVec.toNat / 2 ^ 63 = 1 := by
  have hshift : (x.toBits >>> 63).toNat = x.toBits.toBitVec.toNat / 2 ^ 63 := by
    rw [UInt64.toNat_shiftRight, Nat.shiftRight_eq_div_pow]
    rfl
  rw [isNegative, beq_iff_eq, ← UInt64.toNat_inj, hshift]
  rfl

theorem toBitVec_sign : (sign x).toBitVec.toNat = x.toBits.toBitVec.toNat / 2 ^ 63 := by
  have hlt : x.toBits.toBitVec.toNat < 2 ^ 64 := x.toBits.toBitVec.isLt
  unfold sign
  by_cases hnegative : isNegative x
  . rw [if_pos hnegative, isNegative_iff.1 hnegative]
    rfl
  . rw [if_neg hnegative]
    rw [isNegative_iff] at hnegative
    show 0 = x.toBits.toBitVec.toNat / 2 ^ 63
    omega

theorem ofBitVec_unpackSign
    : Sign.ofBitVec (@UnpackedFloat.unpackSign .binary64 x.toBits.toBitVec) = sign x := by
  rw [← ofBitVec_toBitVec (sign x)]
  refine congrArg _ (BitVec.eq_of_toNat_eq ?_)
  rw [toBitVec_sign]
  exact unpackSign_toNat _

theorem ofFloat_eq
    : Binary.ofFloat x =
        if field x = 0 then { coeff := fraction x, expo := -1074, closeBelow := false }
        else
          { coeff := 2 ^ 52 + fraction x, expo := field x - 1075
            closeBelow := decide (fraction x = 0 ∧ 1 < field x) } := by
  have hfield : ((x.toBits >>> 52) &&& 0x7FF).toNat = field x := by
    rw [UInt64.toNat_and, UInt64.toNat_shiftRight]
    exact (Nat.and_two_pow_sub_one_eq_mod _ 11).trans (by rw [Nat.shiftRight_eq_div_pow]; rfl)
  have hfraction : (x.toBits &&& 0xFFFFFFFFFFFFF).toNat = fraction x := by
    rw [UInt64.toNat_and]
    exact Nat.and_two_pow_sub_one_eq_mod _ 52
  unfold Binary.ofFloat
  rw [hfield, hfraction]
  rfl

theorem unpack_eq
    : x.toModel.unpack =
        if field x = 2 ^ 11 - 1 then if fraction x = 0 then .infinity (sign x) else .notANumber
        else if h : (Binary.ofFloat x).coeff = 0 then .zero (sign x)
        else .finite (sign x) (Binary.ofFloat x).coeff (Binary.ofFloat x).expo
          (Nat.pos_of_ne_zero h) := by
  have hunpacked := unpack_bits x.toBits.toBitVec
  rw [ofBitVec_unpackSign] at hunpacked
  refine hunpacked.trans ?_
  simp only [show x.toBits.toBitVec.toNat / 2 ^ 52 % 2 ^ 11 = field x from rfl,
    show x.toBits.toBitVec.toNat % 2 ^ 52 = fraction x from rfl]
  have hbinary := ofFloat_eq (x := x)
  by_cases hall : field x = 2 ^ 11 - 1
  . rw [if_pos hall, if_pos hall]
  rw [if_neg hall, if_neg hall]
  by_cases hsub : field x = 0
  . rw [if_pos hsub] at hbinary
    simp only [hsub, hbinary, if_true]
  . rw [if_neg hsub] at hbinary
    rw [if_neg hsub, dif_neg (by rw [hbinary]; simp)]
    simp only [hbinary]

theorem field_ne_of_finite (hnan : x.isNaN = false) (hinf : x.isInf = false)
    : field x ≠ 2 ^ 11 - 1 := by
  intro hall
  have hunpacked := unpack_eq (x := x)
  rw [if_pos hall] at hunpacked
  unfold Float.isNaN Float.Model.isNaN at hnan
  unfold Float.isInf Float.Model.isInf at hinf
  rw [hunpacked] at hnan hinf
  split at hnan <;> simp_all [UnpackedFloat.isNaN, UnpackedFloat.isInf]

theorem ofFloat_canonical (hfinite : field x ≠ 2 ^ 11 - 1) (hzero : (Binary.ofFloat x).coeff ≠ 0)
    : (Binary.ofFloat x).Canonical ∧ (Binary.ofFloat x).expo ≤ 971 := by
  have hfield : field x < 2 ^ 11 := Nat.mod_lt _ (by decide)
  have hfraction : fraction x < 2 ^ 52 := Nat.mod_lt _ (by decide)
  rw [ofFloat_eq] at hzero ⊢
  by_cases hsub : field x = 0
  . rw [if_pos hsub] at hzero ⊢
    exact ⟨⟨Nat.pos_of_ne_zero hzero, by simp only; omega, by simp, by simp, by simp⟩, by simp⟩
  . rw [if_neg hsub] at hzero ⊢
    exact ⟨⟨Nat.pos_of_ne_zero hzero, by simp only; omega, by simp only; omega,
      by simp only; omega, by simp only [decide_eq_true_eq]; omega⟩, by simp only; omega⟩

theorem pack_unpack (hfinite : field x ≠ 2 ^ 11 - 1)
    : Float.ofModel (.pack x.toModel.unpack) = x := by
  have hbits : (UnpackedFloat.pack .binary64 x.toModel.unpack).toNat = x.toBits.toBitVec.toNat := by
    have hlt : x.toBits.toBitVec.toNat < 2 ^ 64 := x.toBits.toBitVec.isLt
    have hsign := toBitVec_sign (x := x)
    have hbinary := ofFloat_eq (x := x)
    rw [unpack_eq, if_neg hfinite]
    by_cases hzero : (Binary.ofFloat x).coeff = 0
    . rw [dif_pos hzero]
      refine (packComponents_toNat (sign x) 0 0).trans ?_
      rw [hbinary] at hzero
      split at hzero
      . next hsub =>
        have hzero : fraction x = 0 := hzero
        simp only [BitVec.ofNat_eq_ofNat, BitVec.toNat_zero]
        unfold field fraction at *
        omega
      . simp at hzero
    . obtain ⟨hb, hlarge⟩ := ofFloat_canonical hfinite hzero
      rw [dif_neg hzero, pack_toNat _ _ hb.narrow hb.smallest hlarge, hsign, hbinary]
      have hfraction : fraction x < 2 ^ 52 := Nat.mod_lt _ (by decide)
      by_cases hsub : field x = 0
      . rw [if_pos hsub]
        simp only [if_pos hfraction]
        unfold field at hsub
        unfold fraction
        omega
      . rw [if_neg hsub]
        simp only [if_neg (show ¬ 2 ^ 52 + fraction x < 2 ^ 52 by omega)]
        unfold field fraction at *
        omega
  have hsame : UInt64.ofBitVec (UnpackedFloat.pack .binary64 x.toModel.unpack) = x.toModel.toBits :=
    UInt64.toBitVec_inj.1 (BitVec.eq_of_toNat_eq hbits)
  obtain ⟨⟨bits, hvalid⟩⟩ := x
  exact congrArg Float.ofModel (by simpa [Float.Model.pack] using hsame)

end

theorem isNaN_pack {f : UnpackedFloat} (hf : f ≠ .notANumber)
    : (Float.ofModel (.pack f)).isNaN = false := by
  have hmantissa : UnpackedFloat.unpackExponent (UnpackedFloat.pack .binary64 f) = -1#11 →
      UnpackedFloat.unpackMantissa (UnpackedFloat.pack .binary64 f) = 0#52 := by
    intro hall
    unfold UnpackedFloat.pack at hall ⊢
    cases f with
    | notANumber => exact absurd rfl hf
    | infinity s => simp [UnpackedFloat.packedInfinity]
    | zero s => simp [UnpackedFloat.packedZero]
    | finite s m e hm =>
      simp only at hall ⊢
      split
      . simp [UnpackedFloat.packedInfinity]
      . next hlarge =>
        -- The exponent field of a number is not the largest one.
        rw [if_neg hlarge] at hall
        have hfield := congrArg BitVec.toNat hall
        split at hfield
        . simp at hfield
          omega
        . simp at hfield
  unfold Float.isNaN Float.Model.isNaN
  show (UnpackedFloat.unpack .binary64 (UnpackedFloat.pack .binary64 f)).isNaN = false
  unfold UnpackedFloat.unpack
  simp only
  split
  . next hall =>
    rw [if_pos (hmantissa hall)]
    rfl
  . split
    . split <;> rfl
    . rfl

end Resumable.Decimal
