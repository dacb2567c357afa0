import Resumable.Proofs.Decimal.Double
import Resumable.Decimal.Reader

/-!
This module contains the proof that a decimal fraction is read as the double that it is rounded to.
-/

namespace Resumable.Decimal

open Float.Model (Format UnpackedFloat totalExponent)
open Float.Model.UnpackedFloat (Sign Accuracy ExtendedMantissa)

theorem Approximates.fraction (q : Nat) {r d : Nat} (h : r < d)
    : Approximates (.ofMantissaAndAccuracy q (UnpackedFloat.accuracyOfFraction r d))
        (q + r / d) := by
  have hd : (0 : ℚ) < d := by exact_mod_cast Nat.zero_lt_of_lt h
  have hone : (r / d : ℚ) < 1 := (div_lt_one hd).2 (by exact_mod_cast h)
  unfold UnpackedFloat.accuracyOfFraction
  by_cases hzero : r = 0
  . subst hzero
    simpa using Approximates.exact q
  rw [if_neg hzero]
  have hpos : (0 : ℚ) < r / d := div_pos (by exact_mod_cast Nat.pos_of_ne_zero hzero) hd
  unfold Approximates ExtendedMantissa.ofMantissaAndAccuracy
  rcases Nat.lt_trichotomy (2 * r) d with hlt | heq | hgt
  . have hhalf : (r / d : ℚ) < 1 / 2 := by
      rw [div_lt_div_iff₀ hd two_pos]
      exact_mod_cast (by omega : r * 2 < 1 * d)
    rw [Nat.compare_eq_lt.2 hlt]
    exact ⟨by simpa using hpos, by simpa using hhalf⟩
  . have hhalf : (r / d : ℚ) = 1 / 2 := by
      rw [div_eq_div_iff hd.ne' two_ne_zero]
      exact_mod_cast (by omega : r * 2 = 1 * d)
    rw [Nat.compare_eq_eq.2 heq]
    simp [hhalf]
  . have hhalf : (1 / 2 : ℚ) < r / d := by
      rw [div_lt_div_iff₀ two_pos hd]
      exact_mod_cast (by omega : 1 * d < r * 2)
    rw [Nat.compare_eq_gt.2 hgt]
    refine ⟨by simpa using hhalf, ?_⟩
    simp only [if_true]
    linarith

namespace Binary.Canonical

variable {b : Binary} {m₁ m₂ : Nat} {e₁ e₂ : Int}

theorem mul_eq (hb : b.Canonical) (h₁ : 0 < m₁) (h₂ : 0 < m₂)
    (hrounds : b.Rounds ((m₁ * 2 ^ e₁) * (m₂ * 2 ^ e₂))) (hfine : 2 ^ 52 ≤ m₁ * m₂)
    : UnpackedFloat.mul .binary64 (.finite .positive m₁ e₁ h₁) (.finite .positive m₂ e₂ h₂)
        = .finite .positive b.coeff b.expo hb.positive := by
  unfold UnpackedFloat.mul
  refine hb.roundWithAccuracy_eq ?_ hrounds (.inr hfine) _
  have hproduct : (m₁ * 2 ^ e₁ * (m₂ * 2 ^ e₂) / 2 ^ (e₁ + e₂) : ℚ) = ((m₁ * m₂ : Nat) : ℚ) := by
    rw [zpow_add₀ two_ne_zero]
    push_cast
    field_simp
  rw [hproduct]
  exact .exact _

theorem div_eq (hb : b.Canonical) (h₁ : 0 < m₁) (h₂ : 0 < m₂)
    (hrounds : b.Rounds ((m₁ * 2 ^ e₁) / (m₂ * 2 ^ e₂)))
    : UnpackedFloat.div .binary64 (.finite .positive m₁ e₁ h₁) (.finite .positive m₂ e₂ h₂)
        = .finite .positive b.coeff b.expo hb.positive := by
  have htarget : Format.binary64.targetExponent (totalExponent m₁ e₁ - totalExponent m₂ e₂)
      = max (m₁.log2 + e₁ - (m₂.log2 + e₂) - 53) (-1074) := by
    rw [Binary.targetExponent_eq, totalExponent, totalExponent]
    omega
  unfold UnpackedFloat.div UnpackedFloat.divCore
  simp only [htarget]
  generalize hexpo : min (e₁ - e₂) (max (m₁.log2 + e₁ - (m₂.log2 + e₂) - 53) (-1074)) = e
  generalize hshift : (e₁ - e₂ - e).toNat = s
  have hs : e₁ - e₂ - e = s := by omega
  rw [Nat.shiftLeft_eq]
  refine hb.roundWithAccuracy_eq ?_ hrounds ?_ _
  . have hquotient : (m₁ * 2 ^ e₁ / (m₂ * 2 ^ e₂) / 2 ^ e : ℚ)
        = (m₁ * 2 ^ s / m₂ : Nat) + (m₁ * 2 ^ s % m₂ : Nat) / (m₂ : ℚ) := by
      have hm₂ : (m₂ : ℚ) ≠ 0 := by exact_mod_cast h₂.ne'
      have hdivision : (m₁ * 2 ^ s : ℚ)
          = m₂ * (m₁ * 2 ^ s / m₂ : Nat) + (m₁ * 2 ^ s % m₂ : Nat) := by
        exact_mod_cast (Nat.div_add_mod _ _).symm
      have hpower : (2 : ℚ) ^ e₁ = 2 ^ s * (2 ^ e₂ * 2 ^ e) := by
        rw [← zpow_natCast, ← zpow_add₀ two_ne_zero, ← zpow_add₀ two_ne_zero]
        congr 1
        omega
      rw [hpower]
      field_simp
      rw [hdivision]
    rw [hquotient]
    exact .fraction _ (Nat.mod_lt _ h₂)
  . by_cases hsmall : e ≤ -1074
    . exact .inl hsmall
    -- The dividend has been shifted until the quotient has all its digits.
    . right
      rw [Nat.le_div_iff_mul_le h₂]
      calc 2 ^ 52 * m₂
        _ ≤ 2 ^ 52 * 2 ^ (m₂.log2 + 1) := Nat.mul_le_mul_left _ Nat.lt_log2_self.le
        _ = 2 ^ (52 + (m₂.log2 + 1)) := (Nat.pow_add ..).symm
        _ ≤ 2 ^ (m₁.log2 + s) := Nat.pow_le_pow_right (by decide) (by omega)
        _ = 2 ^ m₁.log2 * 2 ^ s := Nat.pow_add ..
        _ ≤ m₁ * 2 ^ s := Nat.mul_le_mul_right _ (Nat.log2_self_le h₁.ne')

theorem ofScientific_unpacked (hb : b.Canonical) {n : Nat} {k : Int} (hn : 0 < n)
    (hrounds : b.Rounds (n * 10 ^ k)) (hlarge : k ≤ 2048) (hsmall : -(2048 + n.log2) ≤ k)
    : UnpackedFloat.ofScientific .binary64 n k
        = .finite .positive b.coeff b.expo hb.positive := by
  unfold UnpackedFloat.ofScientific
  simp only
  rw [dif_neg hn.ne', if_neg (by omega), if_neg (by omega)]
  by_cases hk : 0 ≤ k
  . rw [if_pos hk]
    refine hb.mul_eq _ _ ((congrArg b.Rounds ?_).mpr hrounds) ?_
    . have hten : (10 : ℚ) ^ k = 10 ^ k.toNat := by
        rw [← zpow_natCast, Int.toNat_of_nonneg hk]
      have hunit : (2 : ℚ) ^ 53 * 2 ^ (-53 : Int) = 1 := by norm_num
      rw [Nat.shiftLeft_eq, hten, zpow_zero, mul_one]
      push_cast
      rw [mul_assoc (n : ℚ)]
      exact congrArg (· * _) ((congrArg (_ * ·) hunit).trans (mul_one _))
    . rw [Nat.shiftLeft_eq]
      calc 2 ^ 52
        _ ≤ 2 ^ 53 := by decide
        _ ≤ n * 2 ^ 53 := Nat.le_mul_of_pos_left _ hn
        _ ≤ n * 2 ^ 53 * 10 ^ k.toNat := Nat.le_mul_of_pos_right _ (Nat.pow_pos (by decide))
  . rw [if_neg hk]
    refine hb.div_eq _ _ ((congrArg b.Rounds ?_).mpr hrounds)
    have hten : (10 : ℚ) ^ k = (10 ^ (-k).toNat)⁻¹ := by
      rw [← zpow_natCast, ← zpow_neg, Int.toNat_of_nonneg (by omega), neg_neg]
    rw [hten, zpow_zero, mul_one, mul_one, div_eq_mul_inv]
    push_cast
    rfl

end Binary.Canonical

def Holds (x : Float) (v : ℚ) : Prop :=
  ∃ (c : Nat) (k : Int) (hc : 0 < c), x.toModel.unpack = .finite .positive c k hc ∧ 2 ^ 52 ≤ c ∧
    c * 2 ^ k = v

theorem holds_ofFloat {x : Float} {n : Nat} (hsign : isNegative x = false) (hsmall : field x ≠ 0)
    (hlarge : field x ≠ 2 ^ 11 - 1)
    (hvalue : (Binary.ofFloat x).coeff * 2 ^ (Binary.ofFloat x).expo.toNat
      = n * 2 ^ (-(Binary.ofFloat x).expo).toNat)
    : Holds x n := by
  have hfull : 2 ^ 52 ≤ (Binary.ofFloat x).coeff := by
    rw [ofFloat_eq, if_neg hsmall]
    exact Nat.le_add_right ..
  refine ⟨_, (Binary.ofFloat x).expo, Nat.lt_of_lt_of_le (by decide) hfull, ?_, hfull, ?_⟩
  . rw [unpack_eq, if_neg hlarge, dif_neg (by omega), sign, hsign]
    rfl
  . rw [zpow_eq_div two_ne_zero, mul_div_assoc', div_eq_iff (by positivity)]
    exact_mod_cast hvalue

theorem holds_powersOfTen {e : Nat} (he : e ≤ 22)
    (h : e < Float.exactlyRepresentablePowersOfTen.size)
    : Holds Float.exactlyRepresentablePowersOfTen[e] (10 ^ e : Nat) := by
  have hall : ∀ e : Fin 23, ∃ h : e.1 < Float.exactlyRepresentablePowersOfTen.size,
      isNegative Float.exactlyRepresentablePowersOfTen[e.1] = false ∧
      field Float.exactlyRepresentablePowersOfTen[e.1] ≠ 0 ∧
      field Float.exactlyRepresentablePowersOfTen[e.1] ≠ 2 ^ 11 - 1 ∧
      (Binary.ofFloat Float.exactlyRepresentablePowersOfTen[e.1]).coeff *
        2 ^ (Binary.ofFloat Float.exactlyRepresentablePowersOfTen[e.1]).expo.toNat
          = 10 ^ e.1 * 2 ^ (-(Binary.ofFloat Float.exactlyRepresentablePowersOfTen[e.1]).expo).toNat := by
    decide +kernel
  obtain ⟨_, hsign, hsmall, hlarge, hvalue⟩ := hall ⟨e, Nat.lt_succ_of_le he⟩
  exact holds_ofFloat hsign hsmall hlarge hvalue

def Binary.ofNat (n : Nat) : Binary :=
  { coeff := n * 2 ^ (52 - n.log2), expo := n.log2 - 52
    closeBelow := decide (n * 2 ^ (52 - n.log2) = 2 ^ 52) }

theorem Binary.canonical_ofNat {n : Nat} (hn : 0 < n) (hnarrow : n < 2 ^ 53)
    : (Binary.ofNat n).Canonical ∧ 2 ^ 52 ≤ (Binary.ofNat n).coeff := by
  have hlog : n.log2 < 53 := (Nat.log2_lt hn.ne').2 hnarrow
  have hfull : 2 ^ 52 ≤ n * 2 ^ (52 - n.log2) :=
    calc 2 ^ 52
      _ = 2 ^ n.log2 * 2 ^ (52 - n.log2) := by rw [← Nat.pow_add]; congr 1; omega
      _ ≤ n * 2 ^ (52 - n.log2) := Nat.mul_le_mul_right _ (Nat.log2_self_le hn.ne')
  have hshort : n * 2 ^ (52 - n.log2) < 2 ^ 53 :=
    calc n * 2 ^ (52 - n.log2)
      _ < 2 ^ (n.log2 + 1) * 2 ^ (52 - n.log2) :=
        Nat.mul_lt_mul_of_pos_right Nat.lt_log2_self (Nat.pow_pos (by decide))
      _ = 2 ^ 53 := by rw [← Nat.pow_add]; congr 1; omega
  unfold Binary.ofNat
  refine ⟨⟨by simp only; omega, hshort, by simp only; omega, .inr hfull, ?_⟩, hfull⟩
  simp only [decide_eq_true_eq]
  omega

theorem Binary.value_ofNat {n : Nat} (hnarrow : n < 2 ^ 53)
    : ((Binary.ofNat n).coeff * 2 ^ (Binary.ofNat n).expo : ℚ) = n := by
  have hlog : n.log2 ≤ 52 := by
    by_cases hn : n = 0
    . subst hn
      decide
    . exact Nat.le_of_lt_succ ((Nat.log2_lt hn).2 hnarrow)
  unfold Binary.ofNat
  push_cast
  rw [mul_assoc, ← zpow_natCast, ← zpow_add₀ two_ne_zero]
  have hzero : ((52 - n.log2 : Nat) : Int) + (n.log2 - 52) = 0 := by omega
  rw [hzero, zpow_zero, mul_one]

theorem holds_toUInt64 {n : Nat} (hn : 0 < n) (hnarrow : n < 2 ^ 53)
    : Holds n.toUInt64.toFloat n := by
  obtain ⟨hb, hfull⟩ := Binary.canonical_ofNat hn hnarrow
  have hvalue := Binary.value_ofNat hnarrow
  refine ⟨_, (Binary.ofNat n).expo, hb.positive, ?_, hfull, hvalue⟩
  have hnat : n.toUInt64.toNat = n := by
    rw [Nat.toUInt64_eq]
    exact UInt64.toNat_ofNat_of_lt (hnarrow.trans (by decide))
  have hlog : n.log2 < 53 := (Nat.log2_lt hn.ne').2 hnarrow
  have hnormal : UnpackedFloat.ofNat .binary64 n
      = .finite .positive (Binary.ofNat n).coeff (Binary.ofNat n).expo hb.positive := by
    have hgt : compare (n : Int) 0 = .gt := Int.compare_eq_gt.2 (by omega)
    have htarget : Format.binary64.targetExponent (totalExponent n 0) = n.log2 - 52 := by
      rw [Binary.targetExponent_eq, totalExponent]
      omega
    have hshift : (0 - ((n.log2 : Int) - 52)).toNat = 52 - n.log2 := by omega
    unfold UnpackedFloat.ofNat UnpackedFloat.ofInt UnpackedFloat.normalize
    rw [hgt]
    unfold UnpackedFloat.round UnpackedFloat.decreaseExponent
    simp only [htarget, hshift, Int.toNat_natCast]
    rw [Nat.shiftLeft_eq]
    refine hb.roundWithAccuracy_eq ?_ (Binary.rounds_value _) (.inr hfull) _
    have hexact : ((Binary.ofNat n).coeff * 2 ^ (Binary.ofNat n).expo
        / 2 ^ (0 - ((52 - n.log2 : Nat) : Int)) : ℚ) = ((n * 2 ^ (52 - n.log2) : Nat) : ℚ) := by
      rw [hvalue, zero_sub, zpow_neg, zpow_natCast, div_inv_eq_mul]
      push_cast
      rfl
    rw [hexact]
    exact .exact _
  show (Float.Model.pack (UnpackedFloat.ofNat .binary64 n.toUInt64.toNat)).unpack = _
  rw [hnat, hnormal]
  exact hb.unpack_pack (by unfold Binary.ofNat; simp only; omega) _

namespace Binary.Canonical

variable {b : Binary}

def double (hb : b.Canonical) : Float :=
  .ofModel (.pack (.finite .positive b.coeff b.expo hb.positive))

theorem ofScientific_eq (hb : b.Canonical) {n : Nat} {k : Int} (hn : 0 < n)
    (hrounds : b.Rounds (n * 10 ^ k)) (hlarge : k ≤ 2048) (hsmall : -(2048 + n.log2) ≤ k)
    : Float.ofScientific n (k < 0) k.natAbs = hb.double := by
  unfold Float.ofScientific
  by_cases hfast : n < 2 ^ 53 ∧ k.natAbs ≤ 22
  . rw [dif_pos hfast]
    obtain ⟨c, e, hc, hunpacked, hfull, hvalue⟩ := holds_toUInt64 hn hfast.1
    obtain ⟨c', e', hc', hunpacked', hfull', hvalue'⟩ := holds_powersOfTen hfast.2
      (by simp [Float.exactlyRepresentablePowersOfTen]; omega)
    by_cases hk : k < 0
    . simp only [decide_eq_true_eq, if_pos hk]
      show Float.ofModel (.pack (UnpackedFloat.div .binary64 (Float.toModel _).unpack
        (Float.toModel _).unpack)) = hb.double
      have hten : (10 : ℚ) ^ k = (10 ^ k.natAbs)⁻¹ := by
        rw [← zpow_natCast, ← zpow_neg]
        congr 1
        omega
      rw [hunpacked, hunpacked', hb.div_eq hc hc']
      . rfl
      . rw [hvalue, hvalue', div_eq_mul_inv]
        push_cast
        exact hten ▸ hrounds
    . simp only [decide_eq_true_eq, if_neg hk]
      show Float.ofModel (.pack (UnpackedFloat.mul .binary64 (Float.toModel _).unpack
        (Float.toModel _).unpack)) = hb.double
      have hten : (10 : ℚ) ^ k = 10 ^ k.natAbs := by
        rw [← zpow_natCast]
        congr 1
        omega
      rw [hunpacked, hunpacked', hb.mul_eq hc hc']
      . rfl
      . rw [hvalue, hvalue']
        push_cast
        exact hten ▸ hrounds
      . exact hfull.trans (Nat.le_mul_of_pos_right _ hc')
  . rw [dif_neg hfast]
    have hexpo : (if decide (k < 0) then Int.negOfNat k.natAbs else Int.ofNat k.natAbs) = k := by
      rw [Int.negOfNat_eq, Int.ofNat_eq_natCast]
      simp only [decide_eq_true_eq]
      split <;> omega
    simp only [hexpo]
    exact congrArg (Float.ofModel ∘ Float.Model.pack)
      (hb.ofScientific_unpacked hn hrounds hlarge hsmall)

theorem bounds (hb : b.Canonical) (hlarge : b.expo ≤ 971) {v : ℚ} (hrounds : b.Rounds v)
    : 10 ^ (-401 : Int) < v ∧ v < 10 ^ (400 : Int) := by
  obtain ⟨w, rfl⟩ : ∃ w, v = w * 2 ^ b.expo := ⟨v / 2 ^ b.expo, by field_simp⟩
  obtain ⟨hlow, hhigh⟩ := hrounds.between
  have hpositive : (1 : ℚ) ≤ b.coeff := by exact_mod_cast hb.positive
  have hnarrow : (b.coeff : ℚ) + 1 ≤ 2 ^ (53 : Int) := by exact_mod_cast hb.narrow
  have height : (8 : ℚ) = 2 ^ (3 : Int) := by norm_num
  have hpower : ∀ m : Nat, (8 : ℚ) ^ m ≤ 10 ^ m :=
    pow_le_pow_left₀ (by norm_num) (by norm_num)
  constructor
  . calc (10 : ℚ) ^ (-401 : Int)
      _ ≤ 8 ^ (-401 : Int) := by
        rw [zpow_neg, zpow_neg, zpow_ofNat, zpow_ofNat]
        exact inv_anti₀ (by positivity) (hpower 401)
      _ = 2 ^ (-1203 : Int) := by rw [height, ← zpow_mul]; rfl
      _ < 2 ^ (-1 + b.expo) := zpow_lt_zpow_right₀ one_lt_two (by have := hb.smallest; omega)
      _ = 1 / 2 * 2 ^ b.expo := by rw [zpow_add₀ two_ne_zero]; norm_num
      _ ≤ w * 2 ^ b.expo := by
        gcongr
        split at hlow <;> linarith
  . calc w * 2 ^ b.expo
      _ < 2 ^ (53 : Int) * 2 ^ b.expo := by
        gcongr
        linarith
      _ = 2 ^ (53 + b.expo) := (zpow_add₀ two_ne_zero ..).symm
      _ ≤ 2 ^ (1200 : Int) := zpow_le_zpow_right₀ one_le_two (by omega)
      _ = 8 ^ (400 : Int) := by rw [height, ← zpow_mul]; rfl
      _ ≤ 10 ^ (400 : Int) := by
        rw [zpow_ofNat, zpow_ofNat]
        exact hpower 400

theorem toFloat_eq (hb : b.Canonical) (hlarge : b.expo ≤ 971) {n : Nat} {k : Int}
    (hrounds : b.Rounds (n * 10 ^ k))
    : toFloat n k = hb.double := by
  obtain ⟨hlow, hhigh⟩ := hb.bounds hlarge hrounds
  have hpos : (0 : ℚ) < 10 ^ k := by positivity
  have hn : n ≠ 0 := by
    rintro rfl
    rw [Nat.cast_zero, zero_mul] at hlow
    exact absurd hlow (not_lt.2 (by positivity))
  have hlength : 0 < (Nat.toDigits 10 n).length := Nat.length_toDigits_pos
  have hdigits : n < 10 ^ (Nat.toDigits 10 n).length :=
    (Nat.length_toDigits_le_iff (by decide) hlength).1 le_rfl
  have hlog : (Nat.toDigits 10 n).length ≤ n.log2 + 1 := by
    rw [Nat.length_toDigits_le_iff (by decide) (Nat.succ_pos _)]
    exact Nat.lt_log2_self.trans_le (Nat.pow_le_pow_left (by decide) _)
  have hdigits' : 10 ^ ((Nat.toDigits 10 n).length - 1) ≤ n := by
    by_cases hone : (Nat.toDigits 10 n).length = 1
    . rw [hone]
      exact Nat.pos_of_ne_zero hn
    . have := mt (Nat.length_toDigits_le_iff (n := n) (by decide : 1 < 10)
        (by omega : 0 < (Nat.toDigits 10 n).length - 1)).2
      omega
  unfold toFloat
  simp only
  generalize (Nat.toDigits 10 n).length = length at *
  have htop : ¬ (k + length < -400) := by
    intro htop
    have hsmall : (n : ℚ) * 10 ^ k < 10 ^ (-401 : Int) :=
      calc (n : ℚ) * 10 ^ k
        _ < 10 ^ (length : Int) * 10 ^ k := by
          gcongr
          exact_mod_cast hdigits
        _ = 10 ^ (length + k) := (zpow_add₀ (by norm_num) ..).symm
        _ ≤ 10 ^ (-401 : Int) := zpow_le_zpow_right₀ (by norm_num) (by omega)
    exact absurd hlow (not_lt.2 hsmall.le)
  have htop' : ¬ (400 < k + length) := by
    intro htop
    have hgreat : (10 : ℚ) ^ (400 : Int) ≤ n * 10 ^ k :=
      calc (10 : ℚ) ^ (400 : Int)
        _ ≤ 10 ^ (((length - 1 : Nat) : Int) + k) :=
          zpow_le_zpow_right₀ (by norm_num) (by omega)
        _ = 10 ^ ((length - 1 : Nat) : Int) * 10 ^ k := zpow_add₀ (by norm_num) ..
        _ ≤ n * 10 ^ k := by
          gcongr
          exact_mod_cast hdigits'
    exact absurd hhigh (not_lt.2 hgreat)
  rw [if_neg (by omega), if_neg htop']
  exact hb.ofScientific_eq (Nat.pos_of_ne_zero hn) hrounds (by omega) (by omega)

end Binary.Canonical

theorem roundWithAccuracy_ne_notANumber {s : Sign} {m : Nat} {e : Int} {accuracy : Accuracy}
    : UnpackedFloat.roundWithAccuracy .binary64 s m e accuracy ≠ .notANumber := by
  unfold UnpackedFloat.roundWithAccuracy
  simp only
  split <;> exact UnpackedFloat.noConfusion

section

variable {s₁ s₂ : Sign} {m₁ m₂ : Nat} {e₁ e₂ : Int} (h₁ : 0 < m₁) (h₂ : 0 < m₂)

theorem mul_ne_notANumber
    : UnpackedFloat.mul .binary64 (.finite s₁ m₁ e₁ h₁) (.finite s₂ m₂ e₂ h₂) ≠ .notANumber :=
  roundWithAccuracy_ne_notANumber

theorem div_ne_notANumber
    : UnpackedFloat.div .binary64 (.finite s₁ m₁ e₁ h₁) (.finite s₂ m₂ e₂ h₂) ≠ .notANumber :=
  roundWithAccuracy_ne_notANumber

end

theorem ofScientific_ne_notANumber (n : Nat) (k : Int)
    : UnpackedFloat.ofScientific .binary64 n k ≠ .notANumber := by
  unfold UnpackedFloat.ofScientific
  split
  . exact UnpackedFloat.noConfusion
  split
  . exact UnpackedFloat.noConfusion
  split
  . exact UnpackedFloat.noConfusion
  split
  . exact mul_ne_notANumber _ _
  . exact div_ne_notANumber _ _

theorem isNaN_ofScientific {n : Nat} (hn : 0 < n) (minus : Bool) (e : Nat)
    : (Float.ofScientific n minus e).isNaN = false := by
  unfold Float.ofScientific
  by_cases hfast : n < 2 ^ 53 ∧ e ≤ 22
  . rw [dif_pos hfast]
    obtain ⟨c, k, hc, hunpacked, -⟩ := holds_toUInt64 hn hfast.1
    obtain ⟨c', k', hc', hunpacked', -⟩ := holds_powersOfTen hfast.2
      (by simp [Float.exactlyRepresentablePowersOfTen]; omega)
    simp only
    split
    . show (Float.ofModel (.pack (UnpackedFloat.div .binary64 (Float.toModel _).unpack
        (Float.toModel _).unpack))).isNaN = false
      rw [hunpacked, hunpacked']
      exact isNaN_pack (div_ne_notANumber hc hc')
    . show (Float.ofModel (.pack (UnpackedFloat.mul .binary64 (Float.toModel _).unpack
        (Float.toModel _).unpack))).isNaN = false
      rw [hunpacked, hunpacked']
      exact isNaN_pack (mul_ne_notANumber hc hc')
  . rw [dif_neg hfast]
    exact isNaN_pack (ofScientific_ne_notANumber _ _)

theorem isNaN_toFloat (n : Nat) (k : Int) : (toFloat n k).isNaN = false := by
  unfold toFloat
  simp only
  split
  . rfl
  . next hsome =>
    split
    . rfl
    . exact isNaN_ofScientific (Nat.pos_of_ne_zero fun hzero => hsome (.inl hzero)) ..

theorem isNaN_neg {x : Float} (hx : x.isNaN = false) : (-x).isNaN = false := by
  refine isNaN_pack ?_
  unfold Float.isNaN Float.Model.isNaN at hx
  cases hunpacked : x.toModel.unpack with
  | notANumber =>
    rw [hunpacked] at hx
    cases hx
  | infinity s => exact UnpackedFloat.noConfusion
  | zero s => exact UnpackedFloat.noConfusion
  | finite s m e hm => exact UnpackedFloat.noConfusion

theorem isNaN_readFloat? {text : List Char} {x : Float} (h : readFloat? text = some x)
    : x.isNaN = false := by
  obtain ⟨minus, n, k, rfl⟩ : ∃ (minus : Bool) (n : Nat) (k : Int),
      x = if minus then -toFloat n k else toFloat n k := by
    unfold readFloat? at h
    simp only at h
    split at h
    . split at h
      . cases h
      . split at h
        . cases h
        . exact ⟨_, _, _, (Option.some_inj.1 h).symm⟩
    . split at h
      . cases h
      . split at h
        . cases h
        . exact ⟨_, _, _, (Option.some_inj.1 h).symm⟩
  split
  . exact isNaN_neg (isNaN_toFloat ..)
  . exact isNaN_toFloat ..

end Resumable.Decimal
