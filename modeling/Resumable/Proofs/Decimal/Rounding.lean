import Mathlib
import Resumable.Decimal.Shortest

/-!
This module contains which numbers are rounded to a double: those in an interval that reaches
halfway to the neighbours of the double on either side.
-/

namespace Resumable.Decimal

open Float.Model (Format UnpackedFloat totalExponent)
open Float.Model.UnpackedFloat (Sign Accuracy ExtendedMantissa)

theorem zpow_eq_div {a : ℚ} (ha : a ≠ 0) (k : Int) : a ^ k = a ^ k.toNat / a ^ (-k).toNat := by
  rw [← zpow_natCast, ← zpow_natCast, ← zpow_sub₀ ha]
  congr 1
  omega

def RoundsTo (w : ℚ) (n : Nat) : Prop :=
  (n - 1 / 2 < w ∧ w < n + 1 / 2) ∨ (n % 2 = 0 ∧ (w = n - 1 / 2 ∨ w = n + 1 / 2))

def Approximates (em : ExtendedMantissa) (w : ℚ) : Prop :=
  let base : ℚ := em.mantissa + if em.roundBit then 1 / 2 else 0
  if em.stickyBit then base < w ∧ w < base + 1 / 2 else w = base

namespace Approximates

variable {em : ExtendedMantissa} {w : ℚ}

theorem exact (m : Nat) : Approximates (.ofMantissaAndAccuracy m .exact) m := by
  simp [Approximates, ExtendedMantissa.ofMantissaAndAccuracy]

theorem lower (h : Approximates em w) : em.mantissa ≤ w := by
  obtain ⟨m, round, sticky⟩ := em
  unfold Approximates at h
  cases round <;> cases sticky <;> simp at h ⊢ <;> linarith

theorem upper (h : Approximates em w) : w < em.mantissa + 1 := by
  obtain ⟨m, round, sticky⟩ := em
  unfold Approximates at h
  cases round <;> cases sticky <;> simp at h ⊢ <;> linarith

theorem shiftRightOne (h : Approximates em w) : Approximates em.shiftRightOne (w / 2) := by
  obtain ⟨m, round, sticky⟩ := em
  have hm : (m : ℚ) = 2 * ((m / 2 : Nat) : ℚ) + ((m % 2 : Nat) : ℚ) := by
    exact_mod_cast (Nat.div_add_mod m 2).symm
  unfold Approximates ExtendedMantissa.shiftRightOne at *
  rcases Nat.mod_two_eq_zero_or_one m with hodd | hodd <;> rw [hodd] at hm <;>
    cases round <;> cases sticky <;> simp [hodd] at h hm ⊢ <;> grind

theorem shiftRight (h : Approximates em w) (n : Nat) : Approximates (em >>> n) (w / 2 ^ n) := by
  have hrepeat : ∀ n, Approximates (n.repeat ExtendedMantissa.shiftRightOne em) (w / 2 ^ n) := by
    intro n
    induction n with
    | zero => simpa [Nat.repeat] using h
    | succ n ih =>
      rw [pow_succ, ← div_div]
      exact ih.shiftRightOne
  exact hrepeat n

theorem roundedMantissa_eq {n : Nat} (h : Approximates em w) (hn : RoundsTo w n)
    : em.roundedMantissa = n := by
  have hlow := h.lower
  have hhigh := h.upper
  have hnear : (2 * n : ℚ) ≤ 2 * w + 1 ∧ 2 * w ≤ 2 * n + 1 := by
    rcases hn with ⟨hlow, hhigh⟩ | ⟨_, rfl | rfl⟩ <;> constructor <;> linarith
  have hbelow : (2 * em.mantissa : ℚ) ≤ 2 * n + 1 := by linarith
  have habove : (2 * n : ℚ) < 2 * em.mantissa + 3 := by linarith
  have hn' : n = em.mantissa ∨ n = em.mantissa + 1 := by
    norm_cast at hbelow habove
    omega
  obtain ⟨m, round, sticky⟩ := em
  unfold Approximates at h
  unfold RoundsTo at hn
  rcases hn' with rfl | rfl <;> cases round <;> cases sticky <;>
    simp [ExtendedMantissa.roundedMantissa, ExtendedMantissa.accuracy,
      Accuracy.roundToNearestEven] at h hn ⊢ <;> grind

end Approximates

namespace Binary

structure Canonical (b : Binary) : Prop where
  positive : 0 < b.coeff
  narrow : b.coeff < 2 ^ 53
  smallest : -1074 ≤ b.expo
  full : b.expo = -1074 ∨ 2 ^ 52 ≤ b.coeff
  closeBelow : b.closeBelow = true ↔ b.coeff = 2 ^ 52 ∧ -1074 < b.expo

def low (b : Binary) : ℚ :=
  (b.coeff - if b.closeBelow then 1 / 4 else 1 / 2) * 2 ^ b.expo

def high (b : Binary) : ℚ :=
  (b.coeff + 1 / 2) * 2 ^ b.expo

def Rounds (b : Binary) (v : ℚ) : Prop :=
  (b.low < v ∧ v < b.high) ∨ (b.coeff % 2 = 0 ∧ (v = b.low ∨ v = b.high))

variable {b : Binary} {v : ℚ}

theorem Rounds.interval {w : ℚ} (h : b.Rounds (w * 2 ^ b.expo))
    : (b.coeff - (if b.closeBelow then 1 / 4 else 1 / 2) < w ∧ w < b.coeff + 1 / 2) ∨
        (b.coeff % 2 = 0 ∧
          (w = b.coeff - (if b.closeBelow then 1 / 4 else 1 / 2) ∨ w = b.coeff + 1 / 2)) := by
  have hpos : (0 : ℚ) < 2 ^ b.expo := by positivity
  unfold Rounds low high at h
  rwa [mul_lt_mul_iff_left₀ hpos, mul_lt_mul_iff_left₀ hpos, mul_left_inj' hpos.ne',
    mul_left_inj' hpos.ne'] at h

theorem Rounds.between {w : ℚ} (h : b.Rounds (w * 2 ^ b.expo))
    : b.coeff - (if b.closeBelow then 1 / 4 else 1 / 2) ≤ w ∧ w ≤ b.coeff + 1 / 2 := by
  rcases h.interval with ⟨hlow, hhigh⟩ | ⟨_, rfl | rfl⟩
  . exact ⟨hlow.le, hhigh.le⟩
  . exact ⟨le_rfl, by split <;> linarith⟩
  . exact ⟨by split <;> linarith, le_rfl⟩

theorem Rounds.roundsTo_coeff {w : ℚ} (h : b.Rounds (w * 2 ^ b.expo)) : RoundsTo w b.coeff := by
  unfold RoundsTo
  rcases h.interval with ⟨hlow, hhigh⟩ | ⟨heven, hlow | hhigh⟩
  . exact .inl ⟨by split at hlow <;> linarith, hhigh⟩
  . by_cases hclose : b.closeBelow
    . rw [if_pos hclose] at hlow
      exact .inl ⟨by linarith, by linarith⟩
    . rw [if_neg hclose] at hlow
      exact .inr ⟨heven, .inl hlow⟩
  . exact .inr ⟨heven, .inr hhigh⟩

theorem Rounds.roundsTo (hb : b.Canonical) (h : b.Rounds v) {k : Int} (hhigh : v < 2 ^ (k + 53))
    (hlow : 2 ^ (k + 52) ≤ v ∨ k ≤ -1074)
    : (max k (-1074) = b.expo ∧ RoundsTo (v / 2 ^ b.expo) b.coeff) ∨
        (max k (-1074) = b.expo - 1 ∧ b.coeff = 2 ^ 52 ∧
          RoundsTo (v / 2 ^ (b.expo - 1)) (2 ^ 53)) := by
  have hpos : (0 : ℚ) < 2 ^ b.expo := by positivity
  obtain ⟨w, rfl⟩ : ∃ w, v = w * 2 ^ b.expo := ⟨v / 2 ^ b.expo, by field_simp⟩
  obtain ⟨hbetween, hbetween'⟩ := h.between
  have hpower : ∀ k : Int, (2 : ℚ) ^ k = 2 ^ (k - b.expo) * 2 ^ b.expo := by
    intro k
    rw [← zpow_add₀ two_ne_zero, sub_add_cancel]
  rw [hpower (k + 53), mul_lt_mul_iff_left₀ hpos] at hhigh
  rw [hpower (k + 52), mul_le_mul_iff_left₀ hpos] at hlow
  have hsmallest := hb.smallest
  -- The number cannot be as large as the next power of two.
  have hk : k ≤ b.expo := by
    rcases hlow with hlow | hlow
    . have hlt : (2 : ℚ) ^ (k + 52 - b.expo) < 2 ^ (53 : Int) := by
        have hnarrow : (b.coeff : ℚ) + 1 ≤ 2 ^ 53 := by exact_mod_cast hb.narrow
        norm_num at hlow hnarrow ⊢
        linarith
      have := (zpow_lt_zpow_iff_right₀ one_lt_two).1 hlt
      omega
    . exact hlow.trans hsmallest
  have hround : RoundsTo (w * 2 ^ b.expo / 2 ^ b.expo) b.coeff := by
    rw [mul_div_cancel_right₀ w hpos.ne']
    exact h.roundsTo_coeff
  rcases hb.full with hexpo | hfull
  . exact .inl ⟨by omega, hround⟩
  by_cases hexpo : k = b.expo ∨ b.expo = -1074
  . exact .inl ⟨by omega, hround⟩
  -- The number is below the power of two that the magnitude is.
  have hbelow : w < 2 ^ 52 :=
    hhigh.trans_le ((zpow_le_zpow_right₀ one_le_two (by omega)).trans_eq (zpow_natCast _ 52))
  have hcoeff : b.coeff = 2 ^ 52 := by
    by_contra hne
    have : (2 : ℚ) ^ 52 + 1 ≤ b.coeff := by exact_mod_cast lt_of_le_of_ne hfull (Ne.symm hne)
    split at hbetween <;> linarith
  rw [hcoeff, if_pos (hb.closeBelow.2 ⟨hcoeff, by omega⟩)] at hbetween
  push_cast at hbetween
  have hstep : b.expo - 1 ≤ k := by
    have hlt : (2 : ℚ) ^ (51 : Int) < 2 ^ (k + 53 - b.expo) := by
      refine lt_of_le_of_lt ?_ hhigh
      norm_num at hbetween ⊢
      linarith
    have := (zpow_lt_zpow_iff_right₀ one_lt_two).1 hlt
    omega
  refine .inr ⟨by omega, hcoeff, ?_⟩
  have htwice : w * 2 ^ b.expo / 2 ^ (b.expo - 1) = 2 * w := by
    rw [zpow_sub_one₀ two_ne_zero]
    field_simp
  rw [htwice]
  unfold RoundsTo
  push_cast
  rcases hbetween.lt_or_eq with hlow | hlow
  . exact .inl ⟨by linarith, by linarith⟩
  . exact .inr ⟨by norm_num, .inl (by linarith)⟩

theorem rounds_value (b : Binary) : b.Rounds (b.coeff * 2 ^ b.expo) := by
  have hpos : (0 : ℚ) < 2 ^ b.expo := by positivity
  unfold Rounds low high
  rw [mul_lt_mul_iff_left₀ hpos, mul_lt_mul_iff_left₀ hpos]
  exact .inl ⟨by split <;> linarith, by linarith⟩

theorem targetExponent_eq (e : Int) : Format.binary64.targetExponent e = max (e - 53) (-1074) := rfl

def cut (m : Nat) (e : Int) : Int :=
  max (m.log2 + e - 52) (-1074)

theorem shiftToTargetExponent_eq {m : Nat} {e : Int} (acc : Accuracy) (hfine : e ≤ cut m e)
    : UnpackedFloat.shiftToTargetExponent .binary64 m e acc
        = (ExtendedMantissa.ofMantissaAndAccuracy m acc >>> (cut m e - e).toNat, cut m e) := by
  have htarget : Format.binary64.targetExponent (totalExponent m e) = cut m e := by
    rw [targetExponent_eq, cut, totalExponent]
    omega
  have hshift : e + ((cut m e - e).toNat : Int) = cut m e := by omega
  unfold UnpackedFloat.shiftToTargetExponent UnpackedFloat.shiftToExponent
  simp only [htarget, hshift]

theorem Canonical.cut_eq (hb : b.Canonical) : cut b.coeff b.expo = b.expo := by
  have hlog : b.coeff.log2 < 53 := (Nat.log2_lt hb.positive.ne').2 hb.narrow
  have hsmallest := hb.smallest
  unfold cut
  rcases hb.full with hexpo | hfull
  . omega
  . have := (Nat.le_log2 hb.positive.ne').2 hfull
    omega

theorem Canonical.roundWithAccuracy_eq (hb : b.Canonical) {m : Nat} {e : Int} {acc : Accuracy}
    (happrox : Approximates (.ofMantissaAndAccuracy m acc) (v / 2 ^ e)) (hrounds : b.Rounds v)
    (hfine : e ≤ -1074 ∨ 2 ^ 52 ≤ m) (sign : Sign)
    : UnpackedFloat.roundWithAccuracy .binary64 sign m e acc
        = .finite sign b.coeff b.expo hb.positive := by
  have hpos : (0 : ℚ) < 2 ^ e := by positivity
  have hmantissa : (ExtendedMantissa.ofMantissaAndAccuracy m acc).mantissa = m := by
    unfold ExtendedMantissa.ofMantissaAndAccuracy
    split <;> rfl
  have hlower := happrox.lower
  have hupper := happrox.upper
  rw [hmantissa, le_div_iff₀ hpos] at hlower
  rw [hmantissa, div_lt_iff₀ hpos] at hupper
  have hlength : v < 2 ^ (m.log2 + e - 52 + 53 : Int) := by
    have hlt : (m : ℚ) + 1 ≤ 2 ^ (m.log2 + 1 : Int) := by exact_mod_cast Nat.lt_log2_self
    refine hupper.trans_le ((mul_le_mul_of_nonneg_right hlt hpos.le).trans_eq ?_)
    rw [← zpow_add₀ two_ne_zero]
    congr 1
    omega
  have hlength' : 2 ^ (m.log2 + e - 52 + 52 : Int) ≤ v ∨ (m.log2 + e - 52 : Int) ≤ -1074 := by
    by_cases hzero : m = 0
    . subst hzero
      exact .inr (by have : Nat.log2 0 = 0 := rfl; omega)
    . left
      have hle : (2 : ℚ) ^ (m.log2 : Int) ≤ m := by exact_mod_cast Nat.log2_self_le hzero
      refine le_trans ?_ hlower
      rw [sub_add_cancel, zpow_add₀ two_ne_zero]
      exact mul_le_mul_of_nonneg_right hle hpos.le
  have hcut : e ≤ cut m e := by
    unfold cut
    rcases hfine with hfine | hfine
    . omega
    . have := (Nat.le_log2 (n := m) (by omega)).2 hfine
      omega
  have hshifted := happrox.shiftRight (cut m e - e).toNat
  have hplace : v / 2 ^ e / 2 ^ (cut m e - e).toNat = v / 2 ^ cut m e := by
    rw [div_div, ← zpow_natCast, ← zpow_add₀ two_ne_zero]
    congr 2
    omega
  rw [hplace] at hshifted
  unfold UnpackedFloat.roundWithAccuracy
  rw [shiftToTargetExponent_eq acc hcut]
  simp only
  rcases hrounds.roundsTo hb hlength hlength' with ⟨hexpo, hround⟩ | ⟨hexpo, hcoeff, hround⟩
  . have hexact := hb.cut_eq
    rw [show cut m e = b.expo from hexpo] at hshifted ⊢
    rw [hshifted.roundedMantissa_eq hround, shiftToTargetExponent_eq .exact hexact.ge, hexact]
    have hkept : (ExtendedMantissa.ofMantissaAndAccuracy b.coeff .exact >>>
        (b.expo - b.expo).toNat).mantissa = b.coeff := by
      rw [sub_self]
      rfl
    rw [hkept]
    exact dif_neg hb.positive.ne'
  -- Rounding has made the coefficient too long by one place.
  . have hnext : cut (2 ^ 53) (b.expo - 1) = b.expo := by
      have := hb.smallest
      unfold cut
      rw [Nat.log2_two_pow]
      omega
    rw [show cut m e = b.expo - 1 from hexpo] at hshifted ⊢
    rw [hshifted.roundedMantissa_eq (by exact_mod_cast hround),
      shiftToTargetExponent_eq .exact (by omega), hnext]
    have hhalved : (ExtendedMantissa.ofMantissaAndAccuracy (2 ^ 53) .exact >>>
        (b.expo - (b.expo - 1)).toNat).mantissa = b.coeff := by
      rw [sub_sub_cancel, hcoeff]
      rfl
    rw [hhalved]
    exact dif_neg hb.positive.ne'

end Binary

end Resumable.Decimal
