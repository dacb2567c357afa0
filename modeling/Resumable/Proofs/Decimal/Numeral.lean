import Resumable.Proofs.Decimal.Nearest
import Resumable.Proofs.Decimal.Shortest
import Resumable.Decimal.Numeral

/-!
This module contains the proof that numbers are read as they are written.
-/

namespace Resumable

theorem span_append {α : Type} {p : α → Bool} {l rest : List α} (hl : ∀ a ∈ l, p a = true)
    (hrest : ∀ a, rest.head? = some a → p a = false)
    : (l ++ rest).span p = (l, rest) := by
  have hstop : rest.takeWhile p = [] ∧ rest.dropWhile p = rest := by
    cases rest with
    | nil => exact ⟨rfl, rfl⟩
    | cons a rest => simp [hrest a rfl]
  rw [List.span_eq_takeWhile_dropWhile, List.takeWhile_append_of_pos hl,
    List.dropWhile_append_of_pos hl, hstop.1, hstop.2, List.append_nil]

namespace Decimal

theorem digitsValue_digits (n : Nat) : digitsValue (digits n) = n :=
  Nat.ofDigitChars_ten_toDigits

theorem digitsValue_append (w p : List Char)
    : digitsValue (w ++ p) = 10 ^ p.length * digitsValue w + digitsValue p :=
  (Nat.ofDigitChars_append 0).trans Nat.ofDigitChars_eq_ofDigitChars_zero

theorem digitsValue_zeros (n : Nat) : digitsValue (List.replicate n '0') = 0 :=
  Nat.ofDigitChars_replicate_zero

theorem isDigit_digits {n : Nat} : ∀ c ∈ digits n, c.isDigit = true :=
  fun _ => Nat.isDigit_of_mem_toDigits (by decide) (by decide)

theorem digits_ne_nil (n : Nat) : digits n ≠ [] :=
  Nat.toDigits_ne_nil

theorem splitSign_of_isDigit {c : Char} (hc : c.isDigit = true) (rest : List Char)
    : splitSign (c :: rest) = (false, c :: rest) := by
  unfold splitSign
  split
  . next heq =>
    cases heq
    contradiction
  . next heq =>
    cases heq
    contradiction
  . rfl

theorem splitSign_signed {c : Char} (hc : c.isDigit = true) (rest : List Char) (minus : Bool)
    : splitSign (if minus then '-' :: c :: rest else c :: rest) = (minus, c :: rest) := by
  cases minus with
  | true => rfl
  | false => exact splitSign_of_isDigit hc rest

theorem readInt?_integer (k : Int) : readInt? (integer k) = some k := by
  have hdigits : (digits k.natAbs).all Char.isDigit = true := List.all_eq_true.2 isDigit_digits
  have hvalue := digitsValue_digits k.natAbs
  unfold readInt? integer
  cases hd : digits k.natAbs with
  | nil => exact absurd hd (digits_ne_nil _)
  | cons c rest =>
    rw [hd] at hdigits hvalue
    have hc : c.isDigit = true := List.all_eq_true.1 hdigits c (List.mem_cons_self ..)
    by_cases hk : k < 0
    . rw [if_pos hk]
      simp only [splitSign, hdigits, hvalue]
      exact congrArg some (by omega)
    . rw [if_neg hk, splitSign_of_isDigit hc]
      simp only [hdigits, hvalue]
      exact congrArg some (by omega)

theorem readInt64?_integer (n : Int64) : readInt64? (integer n.toInt) = some n := by
  unfold readInt64?
  rw [readInt?_integer, Option.bind_some, Number.toWord?, if_pos]
  . rw [Int64.ofInt_toInt]
  . exact ⟨Int64.minValue_le_toInt n, Int64.toInt_le n⟩

theorem chars_integer (k : Int) : ∀ c ∈ integer k, c.isDigit = true ∨ c = '-' := by
  intro c hc
  unfold integer at hc
  split at hc
  . rcases List.mem_cons.1 hc with rfl | hc
    . exact .inr rfl
    . exact .inl (isDigit_digits c hc)
  . exact .inl (isDigit_digits c hc)

inductive IsExponent : List Char → Int → Prop where
  | nil : IsExponent [] 0
  | integer (k : Int) : IsExponent ('e' :: integer k) k

namespace IsExponent

variable {tail : List Char} {k : Int}

theorem readExponent? (h : IsExponent tail k) : readExponent? tail = some k := by
  cases h with
  | nil => rfl
  | integer => exact readInt?_integer k

theorem head (h : IsExponent tail k) {c : Char} (hc : tail.head? = some c) : c = 'e' := by
  cases h with
  | nil => cases hc
  | integer => exact (Option.some_inj.1 hc).symm

theorem chars (h : IsExponent tail k) : ∀ c ∈ tail, c.isDigit = true ∨ c = 'e' ∨ c = '-' := by
  intro c hc
  cases h with
  | nil => cases hc
  | integer =>
    rcases List.mem_cons.1 hc with rfl | hc
    . exact .inr (.inl rfl)
    . exact (chars_integer k c hc).imp_right .inr

end IsExponent

/--
Whether a text writes a fraction without a sign by digits and a power of ten: the digits have a point
in them or an exponent behind them.
-/
inductive Writes : List Char → Nat → Int → Prop where
  | point {w p tail : List Char} {k : Int} (hw : ∀ c ∈ w, c.isDigit = true) (hsome : w ≠ [])
      (hp : ∀ c ∈ p, c.isDigit = true) (htail : IsExponent tail k)
      : Writes (w ++ '.' :: (p ++ tail)) (digitsValue (w ++ p)) (k - p.length)
  | whole {w : List Char} {k : Int} (hw : ∀ c ∈ w, c.isDigit = true) (hsome : w ≠ [])
      : Writes (w ++ 'e' :: integer k) (digitsValue w) k

namespace Writes

variable {text : List Char} {n : Nat} {k : Int}

theorem head (h : Writes text n k) : ∃ c rest, text = c :: rest ∧ c.isDigit = true := by
  cases h with
  | point hw hsome =>
    obtain ⟨c, w, rfl⟩ := List.exists_cons_of_ne_nil hsome
    exact ⟨c, _, rfl, hw c (List.mem_cons_self ..)⟩
  | whole hw hsome =>
    obtain ⟨c, w, rfl⟩ := List.exists_cons_of_ne_nil hsome
    exact ⟨c, _, rfl, hw c (List.mem_cons_self ..)⟩

theorem marked (h : Writes text n k) : '.' ∈ text ∨ 'e' ∈ text := by
  cases h with
  | point => exact .inl (by simp)
  | whole => exact .inr (by simp)

theorem chars (h : Writes text n k)
    : ∀ c ∈ text, c.isDigit = true ∨ c = '.' ∨ c = 'e' ∨ c = '-' := by
  intro c hc
  cases h with
  | point hw _ hp htail =>
    rcases List.mem_append.1 hc with hc | hc
    . exact .inl (hw c hc)
    rcases List.mem_cons.1 hc with rfl | hc
    . exact .inr (.inl rfl)
    rcases List.mem_append.1 hc with hc | hc
    . exact .inl (hp c hc)
    . exact (htail.chars c hc).imp_right .inr
  | whole hw =>
    rcases List.mem_append.1 hc with hc | hc
    . exact .inl (hw c hc)
    . exact ((IsExponent.integer k).chars c hc).imp_right .inr

theorem readFloat? (h : Writes text n k) (minus : Bool)
    : Decimal.readFloat? (if minus then '-' :: text else text)
        = some (if minus then -toFloat n k else toFloat n k) := by
  obtain ⟨c, rest, hhead, hc⟩ := h.head
  unfold Decimal.readFloat?
  rw [hhead, splitSign_signed hc, ← hhead]
  cases h with
  | @point w p tail k hw hsome hp htail =>
    have hrest : ∀ c, ('.' :: (p ++ tail)).head? = some c → c.isDigit = false := by simp
    have htail' : ∀ c, tail.head? = some c → c.isDigit = false :=
      fun c hc => by rw [htail.head hc]; rfl
    simp only [span_append hw hrest, span_append hp htail', htail.readExponent?]
    simp [hsome]
  | @whole w k hw hsome =>
    have hrest : ∀ c, ('e' :: integer k).head? = some c → c.isDigit = false := by simp
    simp only [span_append hw hrest]
    simp [hsome, (IsExponent.integer k).readExponent?]

theorem not_all_isDigit (h : Writes text n k) : text.all Char.isDigit = false := by
  refine List.all_eq_false.2 ?_
  rcases h.marked with hmark | hmark
  . exact ⟨'.', hmark, by decide⟩
  . exact ⟨'e', hmark, by decide⟩

theorem readInt64? (h : Writes text n k) (minus : Bool)
    : Decimal.readInt64? (if minus then '-' :: text else text) = none := by
  obtain ⟨c, rest, rfl, hc⟩ := h.head
  unfold Decimal.readInt64? readInt?
  rw [splitSign_signed hc]
  simp [h.not_all_isDigit]

end Writes

theorem writes_positional (d : Scaled)
    : ∃ n k, Writes (positional d ['.', '0']) n k ∧ (n * 10 ^ k : ℚ) = d.value := by
  have hdigits := isDigit_digits (n := d.digits)
  have hzeros : ∀ {n : Nat}, ∀ c ∈ List.replicate n '0', c.isDigit = true := by
    intro n c hc
    rw [List.eq_of_mem_replicate hc]
    rfl
  have hzero : digitsValue ['0'] = 0 := rfl
  unfold positional Scaled.value
  simp only
  by_cases hwhole : 0 ≤ d.expo
  . have hw : ∀ c ∈ digits d.digits ++ List.replicate d.expo.toNat '0', c.isDigit = true :=
      fun c hc => (List.mem_append.1 hc).elim (hdigits c) (hzeros c)
    have hwrites := Writes.point hw (by simp [digits_ne_nil]) (hzeros (n := 1)) .nil
    rw [if_pos hwhole]
    refine ⟨_, _, hwrites, ?_⟩
    rw [List.replicate_one, digitsValue_append, digitsValue_append, digitsValue_zeros,
      digitsValue_digits]
    have hexpo : (10 : ℚ) ^ d.expo = 10 ^ d.expo.toNat := by
      rw [← zpow_natCast, Int.toNat_of_nonneg hwhole]
    have hone : (10 : ℚ) * 10 ^ (0 - 1 : Int) = 1 := by norm_num
    rw [hzero, hexpo, List.length_replicate, List.length_singleton]
    push_cast
    linear_combination (d.digits * 10 ^ d.expo.toNat : ℚ) * hone
  rw [if_neg hwhole]
  by_cases hshort : (-d.expo).toNat < (digits d.digits).length
  . rw [if_pos hshort]
    generalize hcut : (digits d.digits).length - (-d.expo).toNat = cut
    have hwrites := Writes.point (fun c hc => hdigits c (List.mem_of_mem_take hc))
      (show (digits d.digits).take cut ≠ [] by simp [digits_ne_nil]; omega)
      (fun c hc => hdigits c (List.mem_of_mem_drop (i := cut) hc)) .nil
    rw [List.append_nil] at hwrites
    refine ⟨_, _, hwrites, ?_⟩
    rw [List.take_append_drop, digitsValue_digits, List.length_drop]
    congr 2
    omega
  . rw [if_neg hshort]
    generalize hpad : (-d.expo).toNat - (digits d.digits).length = pad
    have hp : ∀ c ∈ List.replicate pad '0' ++ digits d.digits, c.isDigit = true :=
      fun c hc => (List.mem_append.1 hc).elim (hzeros c) (hdigits c)
    have hwrites := Writes.point (hzeros (n := 1)) (by simp) hp .nil
    rw [List.append_nil, List.replicate_one] at hwrites
    refine ⟨_, _, hwrites, ?_⟩
    rw [digitsValue_append, digitsValue_append, digitsValue_zeros, digitsValue_digits, hzero,
      mul_zero, mul_zero, zero_add, zero_add, List.length_append, List.length_replicate]
    congr 2
    omega

theorem writes_scientific (d : Scaled)
    : ∃ n k, Writes (scientific d) n k ∧ (n * 10 ^ k : ℚ) = d.value := by
  have hdigits := isDigit_digits (n := d.digits)
  have hvalue := digitsValue_digits d.digits
  unfold scientific Scaled.value leading
  simp only
  cases htext : digits d.digits with
  | nil => exact absurd htext (digits_ne_nil _)
  | cons first rest =>
    rw [htext] at hdigits hvalue
    cases rest with
    | nil =>
      refine ⟨_, _, .whole hdigits (List.cons_ne_nil _ _), ?_⟩
      rw [hvalue]
      congr 2
      simp
    | cons second rest =>
      have hfirst : ∀ c ∈ [first], c.isDigit = true :=
        fun c hc => hdigits c (by rw [List.mem_singleton.1 hc]; exact List.mem_cons_self ..)
      refine ⟨_, _, .point hfirst (List.cons_ne_nil _ _)
        (fun c hc => hdigits c (List.mem_cons_of_mem _ hc)) (.integer _), ?_⟩
      rw [List.singleton_append, hvalue]
      congr 2
      simp only [List.length_cons]
      omega

theorem Binary.Canonical.neg_double {b : Binary} (hb : b.Canonical) (hlarge : b.expo ≤ 971)
    : -hb.double = .ofModel (.pack (.finite .negative b.coeff b.expo hb.positive)) := by
  show Float.ofModel (.pack (Float.Model.pack (.finite .positive b.coeff b.expo _)).unpack.neg) = _
  rw [hb.unpack_pack hlarge]
  rfl

theorem writes_ofLiteral {x : Float} (hnan : x.isNaN = false) (hinf : x.isInf = false)
    : ∃ text n k, Writes text n k ∧ ofLiteral x = (if isNegative x then '-' :: text else text) ∧
        readFloat? (ofLiteral x) = some x := by
  have hfinite := field_ne_of_finite hnan hinf
  have hpacked := pack_unpack hfinite
  rw [unpack_eq, if_neg hfinite, sign] at hpacked
  obtain ⟨text, n, k, hwrites, hliteral, hread⟩ : ∃ text n k, Writes text n k ∧
      ofLiteral x = (if isNegative x then '-' :: text else text) ∧
      (if isNegative x then -toFloat n k else toFloat n k) = x := by
    unfold ofLiteral signed
    simp only [hnan, hinf]
    by_cases hzero : (Binary.ofFloat x).coeff = 0
    . have hwrites : Writes ['0', '.', '0'] 0 (0 - 1) :=
        .point (w := ['0']) (p := ['0']) (by simp) (by simp) (by simp) .nil
      rw [dif_pos hzero] at hpacked
      refine ⟨_, _, _, hwrites, by simp [hzero], ?_⟩
      split at hpacked
      . next hneg => rw [if_pos hneg]; exact hpacked
      . next hneg => rw [if_neg hneg]; exact hpacked
    . obtain ⟨hb, hlarge⟩ := ofFloat_canonical hfinite hzero
      obtain ⟨n, k, hwrites, hvalue⟩ : ∃ n k, Writes (if -4 ≤ leading (Binary.ofFloat x).shortest ∧
          leading (Binary.ofFloat x).shortest ≤ 15
          then positional (Binary.ofFloat x).shortest ['.', '0']
          else scientific (Binary.ofFloat x).shortest) n k ∧
            (n * 10 ^ k : ℚ) = (Binary.ofFloat x).shortest.value := by
        split
        . exact writes_positional _
        . exact writes_scientific _
      have hdouble : toFloat n k = hb.double :=
        hb.toFloat_eq hlarge (by rw [hvalue]; exact hb.rounds_shortest.1)
      rw [dif_neg hzero] at hpacked
      refine ⟨_, _, _, hwrites, by simp [hzero], ?_⟩
      rw [hdouble]
      split at hpacked
      . next hneg => rw [if_pos hneg, hb.neg_double hlarge, hpacked]
      . next hneg => rw [if_neg hneg]; exact hpacked
  exact ⟨text, n, k, hwrites, hliteral, by rw [hliteral, hwrites.readFloat?, hread]⟩

end Decimal

end Resumable
