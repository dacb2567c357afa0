import Mathlib.Data.Int.ModEq
import Mathlib.Data.Rat.Floor
import Resumable.Number.Word

/-!
This module contains what arithmetic on 64-bit words gives: the word of the exact integer if there
is one, and otherwise nothing. There always is one for the remainder with the sign of the divisor,
but that is given only along with a quotient, for which there is no word if the least integer is
divided by minus one.
-/

namespace Resumable.Number

def Fits (n : Int) : Prop :=
  -2 ^ 63 ≤ n ∧ n < 2 ^ 63

def truncate (x : ℚ) : Int :=
  if 0 ≤ x then ⌊x⌋ else ⌈x⌉

/--
Whether an integer is congruent to `a` modulo `b`, lies between zero and `b`, and is not `b`.
-/
structure IsModulus (a b r : Int) : Prop where
  congruent : r ≡ a [ZMOD b]
  range : 0 ≤ r ∧ r < b ∨ b < r ∧ r ≤ 0

/--
Whether two integers are the least one and minus one, whose quotient is out of range.
-/
def LeastByMinusOne (a b : Int) : Prop :=
  a = -2 ^ 63 ∧ b = -1

theorem truncate_neg (x : ℚ) : truncate (-x) = -truncate x := by
  unfold truncate
  rcases lt_trichotomy x 0 with h | rfl | h
  . rw [if_pos (neg_nonneg.2 h.le), if_neg h.not_ge, Int.floor_neg]
  . simp
  . rw [if_neg (neg_lt_zero.2 h).not_ge, if_pos h.le, Int.ceil_neg]

theorem truncate_div (a b : Int) : truncate (a / b) = a.tdiv b := by
  have hnat : ∀ m n : Nat, truncate (m / n) = (m : Int).tdiv n := fun m n => by
    rw [truncate, if_pos (by positivity), Rat.floor_natCast_div_natCast]
    rfl
  obtain ⟨m, rfl | rfl⟩ := a.eq_nat_or_neg <;> obtain ⟨n, rfl | rfl⟩ := b.eq_nat_or_neg
  . exact hnat m n
  . simp [div_neg, truncate_neg, hnat]
  . simp [neg_div, truncate_neg, hnat]
  . simp [neg_div, div_neg, hnat]

section

variable {a b r s : Int}

theorem fits_tdiv_iff (ha : Fits a) : Fits (a.tdiv b) ↔ ¬ LeastByMinusOne a b := by
  unfold Fits LeastByMinusOne at *
  by_cases hminus : b = -1
  . rw [hminus, Int.tdiv_neg, Int.tdiv_one]
    omega
  . have hsize := Int.natAbs_tdiv a b
    rcases Nat.lt_or_ge b.natAbs 2 with hsmall | hlarge
    . obtain rfl | rfl : b = 0 ∨ b = 1 := by omega
      . simp
      . rw [Int.tdiv_one]
        omega
    . have hhalf : (a.tdiv b).natAbs ≤ a.natAbs / 2 :=
        hsize ▸ Nat.div_le_div_left hlarge Nat.two_pos
      omega

theorem IsModulus.fits (h : IsModulus a b r) (hb : Fits b) : Fits r := by
  have hrange := h.range
  unfold Fits at *
  omega

theorem IsModulus.unique (hr : IsModulus a b r) (hs : IsModulus a b s) : r = s := by
  have hdvd : b ∣ r - s := Int.modEq_iff_dvd.1 (hs.congruent.trans hr.congruent.symm)
  have hlt : (r - s).natAbs < b.natAbs := by
    have hrange := hr.range
    have hrange' := hs.range
    omega
  exact Int.sub_eq_zero.1 (Int.eq_zero_of_dvd_of_natAbs_lt_natAbs hdvd hlt)

theorem isModulus_adjusted (hcongruent : r ≡ a [ZMOD b]) (hlt : r.natAbs < b.natAbs)
    : IsModulus a b (if r ≠ 0 ∧ decide (0 < r) ≠ decide (0 < b) then r + b else r) := by
  simp only [ne_eq, decide_eq_decide]
  split
  . exact ⟨(Int.add_modEq_right ..).trans hcongruent, by omega⟩
  . exact ⟨hcongruent, by omega⟩

theorem tmod_modEq (a b : Int) : a.tmod b ≡ a [ZMOD b] :=
  Int.modEq_iff_dvd.2 ⟨a.tdiv b, by rw [Int.tmod_def]; omega⟩

theorem natAbs_tmod_lt (hb : b ≠ 0) : (a.tmod b).natAbs < b.natAbs := by
  rw [Int.natAbs_tmod]
  exact Nat.mod_lt _ (Int.natAbs_pos.2 hb)

theorem fits_tmod (hfits : Fits b) (hb : b ≠ 0) : Fits (a.tmod b) := by
  have hlt := natAbs_tmod_lt (a := a) hb
  unfold Fits at *
  omega

theorem exists_isModulus (a : Int) (hb : b ≠ 0) : ∃ r, IsModulus a b r :=
  ⟨_, isModulus_adjusted (tmod_modEq a b) (natAbs_tmod_lt hb)⟩

end

section

variable {a b c : Int64} {n : Int}

theorem fits_toInt (a : Int64) : Fits a.toInt :=
  ⟨Int64.le_toInt a, Int64.toInt_lt a⟩

theorem exists_toInt_eq (h : Fits n) : ∃ a : Int64, a.toInt = n :=
  ⟨Int64.ofInt n, Int64.toInt_ofInt_of_le h.1 h.2⟩

theorem toWord?_eq_some_iff : toWord? n = some c ↔ c.toInt = n := by
  unfold toWord?
  constructor
  . intro h
    split at h
    . next hrange =>
      cases h
      refine Int64.toInt_ofInt_of_le hrange.1 (Int.lt_of_le_of_lt hrange.2 ?_)
      exact Int64.toInt_lt _
    . cases h
  . rintro rfl
    rw [if_pos ⟨Int64.minValue_le_toInt c, Int64.toInt_le c⟩, Int64.ofInt_toInt]

theorem add?_eq_some_iff : add? a b = some c ↔ c.toInt = a.toInt + b.toInt :=
  toWord?_eq_some_iff

theorem sub?_eq_some_iff : sub? a b = some c ↔ c.toInt = a.toInt - b.toInt :=
  toWord?_eq_some_iff

theorem mul?_eq_some_iff : mul? a b = some c ↔ c.toInt = a.toInt * b.toInt :=
  toWord?_eq_some_iff

theorem neg?_eq_some_iff : neg? a = some c ↔ c.toInt = 0 - a.toInt := by
  rw [Int.zero_sub]
  exact toWord?_eq_some_iff

theorem div?_eq_some_iff (hb : b.toInt ≠ 0)
    : div? a b = some c ↔ c.toInt = truncate (a.toInt / b.toInt) := by
  rw [truncate_div, div?, if_neg hb]
  exact toWord?_eq_some_iff

theorem rem?_eq_some_iff (hb : b.toInt ≠ 0)
    : rem? a b = some c ↔
        ¬ LeastByMinusOne a.toInt b.toInt ∧ c.toInt = a.toInt.tmod b.toInt := by
  unfold rem?
  rw [Option.bind_eq_some_iff, ← fits_tdiv_iff (fits_toInt a)]
  simp only [div?_eq_some_iff hb, truncate_div, toWord?_eq_some_iff]
  constructor
  . rintro ⟨q, hq, hc⟩
    exact ⟨hq ▸ fits_toInt q, hc⟩
  . rintro ⟨hfits, hc⟩
    obtain ⟨q, hq⟩ := exists_toInt_eq hfits
    exact ⟨q, hq, hc⟩

theorem mod?_eq_some_iff (hb : b.toInt ≠ 0)
    : mod? a b = some c ↔
        ¬ LeastByMinusOne a.toInt b.toInt ∧ IsModulus a.toInt b.toInt c.toInt := by
  -- with the divisor added or not, the remainder is the modulus, so a word is given for that alone
  have hmodulus := isModulus_adjusted (tmod_modEq a.toInt b.toInt) (natAbs_tmod_lt hb)
  have hadjusted : ∀ r : Int64, r.toInt = a.toInt.tmod b.toInt →
      ((if r.toInt ≠ 0 ∧ decide (0 < r.toInt) ≠ decide (0 < b.toInt) then add? r b else some r)
        = some c ↔ IsModulus a.toInt b.toInt c.toInt) := fun r hr => by
    rw [← hr] at hmodulus
    split at hmodulus
    . next hsigns =>
      rw [if_pos hsigns, add?_eq_some_iff]
      exact ⟨fun h => h ▸ hmodulus, fun h => h.unique hmodulus⟩
    . next hsigns =>
      rw [if_neg hsigns, Option.some_inj, eq_comm, ← Int64.toInt_inj]
      exact ⟨fun h => h ▸ hmodulus, fun h => h.unique hmodulus⟩
  unfold mod?
  rw [Option.bind_eq_some_iff]
  constructor
  . rintro ⟨r, hr, hc⟩
    rw [rem?_eq_some_iff hb] at hr
    exact ⟨hr.1, (hadjusted r hr.2).1 hc⟩
  . rintro ⟨hleast, hc⟩
    obtain ⟨r, hr⟩ := exists_toInt_eq (fits_tmod (a := a.toInt) (fits_toInt b) hb)
    exact ⟨r, (rem?_eq_some_iff hb).2 ⟨hleast, hr⟩, (hadjusted r hr).2 hc⟩

end

end Resumable.Number
