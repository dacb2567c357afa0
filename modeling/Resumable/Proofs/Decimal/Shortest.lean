import Resumable.Proofs.Decimal.Rounding

/-!
This module contains the proof that the decimal chosen for a double is rounded to the double again.
-/

namespace Resumable.Decimal

def Scaled.value (d : Scaled) : ℚ :=
  d.digits * 10 ^ d.expo

theorem Window.holds_of_nearest? {w : Window} {n : Nat} (h : w.nearest? = some n)
    : w.holds n = true := by
  unfold nearest? at h
  simp only at h
  split at h
  . cases h
    split <;> assumption
  . cases h
    assumption
  . cases h
    assumption
  . cases h

namespace Binary

variable {b : Binary} {grid : Int} {n : Nat}

theorem window_eq (hb : b.Canonical) (grid : Int)
    : ∃ unit : ℚ, 0 < unit ∧ (b.window grid).low = b.low * unit ∧
        (b.window grid).high = b.high * unit ∧ (b.window grid).step = 10 ^ grid * unit := by
  have hpositive := hb.positive
  have hplace : (2 : ℚ) ^ b.expo = 4 * (2 ^ (b.expo - 2).toNat / 2 ^ (-(b.expo - 2)).toNat) := by
    rw [← zpow_eq_div two_ne_zero, zpow_sub₀ two_ne_zero]
    norm_num
    field_simp
  have hgrid := zpow_eq_div (show (10 : ℚ) ≠ 0 by norm_num) grid
  have hcast : ((4 * b.coeff - (if b.closeBelow then 1 else 2) : Nat) : ℚ)
      = 4 * (b.coeff - if b.closeBelow then 1 / 4 else 1 / 2) := by
    split
    . rw [Nat.cast_sub (by omega)]
      push_cast
      ring
    . rw [Nat.cast_sub (by omega)]
      push_cast
      ring
  refine ⟨2 ^ (-(b.expo - 2)).toNat * 10 ^ (-grid).toNat, by positivity, ?_⟩
  unfold window low high
  simp only [Nat.pow_eq]
  rw [hplace, hgrid]
  push_cast [hcast]
  refine ⟨?_, ?_, ?_⟩
  . field_simp
  . field_simp
    ring
  . field_simp

theorem rounds_of_holds (hb : b.Canonical) (h : (b.window grid).holds n = true)
    : b.Rounds (n * 10 ^ grid) := by
  obtain ⟨unit, hpos, hlow, hhigh, hstep⟩ := window_eq hb grid
  have hpoint : ((n * (b.window grid).step : Nat) : ℚ) = n * 10 ^ grid * unit := by
    rw [Nat.cast_mul, hstep, mul_assoc]
  have hclosed : (b.window grid).closed = (b.coeff % 2 == 0) := rfl
  unfold Window.holds at h
  simp only [hclosed] at h
  split at h
  . next heven =>
    rw [Bool.and_eq_true, decide_eq_true_eq, decide_eq_true_eq, ← Nat.cast_le (α := ℚ),
      ← Nat.cast_le (α := ℚ), hpoint, hlow, hhigh, mul_le_mul_iff_left₀ hpos,
      mul_le_mul_iff_left₀ hpos] at h
    rcases h.1.lt_or_eq with hlow | hlow
    . rcases h.2.lt_or_eq with hhigh | hhigh
      . exact .inl ⟨hlow, hhigh⟩
      . exact .inr ⟨beq_iff_eq.1 heven, .inr hhigh⟩
    . exact .inr ⟨beq_iff_eq.1 heven, .inl hlow.symm⟩
  . rw [Bool.and_eq_true, decide_eq_true_eq, decide_eq_true_eq, ← Nat.cast_lt (α := ℚ),
      ← Nat.cast_lt (α := ℚ), hpoint, hlow, hhigh, mul_lt_mul_iff_left₀ hpos,
      mul_lt_mul_iff_left₀ hpos] at h
    exact .inl h

theorem search_spec {tries : Nat} {d : Scaled} (h : b.search tries grid = some d)
    : d.digits ≠ 0 ∧ (b.window d.expo).holds d.digits = true := by
  induction tries generalizing grid with
  | zero => cases h
  | succ tries ih =>
    unfold search at h
    split at h
    . next steps hnearest =>
      split at h
      . exact ih h
      . next hzero =>
        cases h
        exact ⟨hzero, Window.holds_of_nearest? hnearest⟩
    . exact ih h

theorem Canonical.rounds_shortest (hb : b.Canonical)
    : b.Rounds b.shortest.value ∧ b.shortest.digits ≠ 0 := by
  unfold shortest
  split
  . next d hfound =>
    obtain ⟨hzero, hholds⟩ := search_spec hfound
    exact ⟨rounds_of_holds hb hholds, hzero⟩
  . have hexact : ((b.coeff * Nat.pow 2 b.expo.toNat * Nat.pow 5 (-b.expo).toNat : Nat) : ℚ)
        * 10 ^ (-(-b.expo).toNat : Int) = b.coeff * 2 ^ b.expo := by
      have hten : (10 : ℚ) ^ (-b.expo).toNat = 2 ^ (-b.expo).toNat * 5 ^ (-b.expo).toNat := by
        rw [← mul_pow]
        norm_num
      simp only [Nat.pow_eq]
      rw [zpow_neg, zpow_natCast, hten, zpow_eq_div two_ne_zero]
      push_cast
      field_simp
    refine ⟨(congrArg b.Rounds hexact).mpr b.rounds_value, ?_⟩
    have hpositive := hb.positive
    simp only [Nat.pow_eq]
    positivity

end Binary

end Resumable.Decimal
