/-
  SourceAudit/Proofs/Binary64/Exact.lean
  ======================================
  **Rounding keeps what is representable.**

  A finite number is `± significand · 2 ^ exponent` (`value`).  A quotient that has the
  distance of a finite number from zero is rounded to that number (`ofQuotient_eq`), and
  natural numbers below `2 ^ 53` are such quotients (`ofNat_isExact`).
-/
import Mathlib.Algebra.Order.Field.Power
import Mathlib.Tactic.FieldSimp
import Mathlib.Tactic.Linarith
import Mathlib.Tactic.Positivity
import Mathlib.Data.Rat.Cast.Order
import SourceAudit.Binary64.Rounding

namespace SourceAudit.Binary64

/-- How far a finite number lies from zero. -/
def distance (x : Binary64) : ℚ := x.significand * 2 ^ x.exponent

/-- A finite number as a rational. -/
def value (x : Binary64) : ℚ := if x.negative then -x.distance else x.distance

/-! ### The parts of a number -/

theorem significand_lt (x : Binary64) : x.significand < 2 * hiddenBit := by
  unfold significand
  split
  · omega
  · have := Nat.mod_lt x.rank (show 0 < hiddenBit by decide)
    omega

theorem exponent_ge (x : Binary64) : -1074 ≤ x.exponent := by
  unfold exponent
  omega

/-- The significand of a number is full, or its exponent is the lowest. -/
theorem full_or_lowest (x : Binary64) : hiddenBit ≤ x.significand ∨ x.exponent = -1074 := by
  unfold significand exponent
  split
  · next h =>
    rw [Nat.div_eq_of_lt h]
    exact .inr rfl
  · exact .inl (Nat.le_add_right _ _)

theorem rank_eq (x : Binary64) :
    x.rank = (x.exponent + 1074).toNat * hiddenBit + x.significand := by
  have hsplit := Nat.div_add_mod x.rank hiddenBit
  unfold significand exponent
  split
  · next h =>
    rw [Nat.div_eq_of_lt h]
    simp
  · next h =>
    have hpos : 1 ≤ x.rank / hiddenBit := (Nat.one_le_div_iff (by decide)).mpr (Nat.le_of_not_lt h)
    obtain ⟨k, hk⟩ := Nat.exists_eq_add_of_le hpos
    have hexponent : (((max (x.rank / hiddenBit) 1 : ℕ) : ℤ) - 1075 + 1074).toNat = k := by omega
    rw [hexponent]
    rw [hk, Nat.mul_add, Nat.mul_one, Nat.mul_comm] at hsplit
    omega

/-- The parts of the number on a given rank. -/
theorem parts_of_rank {x : Binary64} {m : ℕ} {q : ℤ} (hm : m < 2 * hiddenBit) (hq : -1074 ≤ q)
    (hfull : hiddenBit ≤ m ∨ q = -1074)
    (hrank : x.rank = (q + 1074).toNat * hiddenBit + m) : x.significand = m ∧ x.exponent = q := by
  obtain ⟨k, hk⟩ := Int.eq_ofNat_of_zero_le (show 0 ≤ q + 1074 by omega)
  rw [hk, Int.toNat_natCast] at hrank
  unfold significand exponent
  by_cases hsmall : m < hiddenBit
  · have hlowest : q = -1074 := hfull.resolve_left (Nat.not_le_of_lt hsmall)
    obtain rfl : k = 0 := by omega
    rw [Nat.zero_mul, Nat.zero_add] at hrank
    rw [hrank, if_pos hsmall, Nat.div_eq_of_lt hsmall]
    exact ⟨rfl, hlowest.symm⟩
  · obtain ⟨r, rfl⟩ := Nat.exists_eq_add_of_le (Nat.le_of_not_lt hsmall)
    have hr : r < hiddenBit := by omega
    have hplace : x.rank = r + hiddenBit * (k + 1) := by
      rw [hrank, Nat.mul_add, Nat.mul_one, Nat.mul_comm]
      omega
    have hlarge : ¬ x.rank < hiddenBit := by
      rw [hplace, Nat.mul_add, Nat.mul_one]
      omega
    rw [if_neg hlarge, hplace, Nat.add_mul_mod_self_left, Nat.mod_eq_of_lt hr,
      Nat.add_mul_div_left _ _ (by decide), Nat.div_eq_of_lt hr]
    exact ⟨rfl, by omega⟩

/-! ### Kinds of numbers -/

theorem not_nan_of_finite {x : Binary64} (hfinite : x.isFinite = true) : x.isNaN = false :=
  decide_eq_false (Nat.not_lt_of_gt (of_decide_eq_true hfinite))

theorem not_infinite_of_finite {x : Binary64} (hfinite : x.isFinite = true) :
    x.isInfinite = false :=
  decide_eq_false (Nat.ne_of_lt (of_decide_eq_true hfinite))

theorem distance_nonneg (x : Binary64) : 0 ≤ x.distance := by
  unfold distance
  positivity

theorem distance_eq_natAbs {x : Binary64} {i : ℤ} (h : x.value = i) :
    x.distance = i.natAbs := by
  have habs : |x.value| = x.distance := by
    unfold value
    split
    · rw [abs_neg, abs_of_nonneg x.distance_nonneg]
    · rw [abs_of_nonneg x.distance_nonneg]
  rw [← habs, h, Nat.cast_natAbs, Int.cast_abs]

theorem distance_zero (negative : Bool) : (zero negative).distance = 0 := by
  simp [distance, significand, zero, hiddenBit]

theorem isZero_iff (x : Binary64) : x.isZero = true ↔ x.distance = 0 := by
  have hrank := rank_eq x
  rw [isZero, decide_eq_true_eq, distance, mul_eq_zero, Nat.cast_eq_zero,
    or_iff_left (zpow_ne_zero _ two_ne_zero)]
  constructor
  · omega
  · intro hzero
    have hlowest : x.exponent = -1074 := by
      refine x.full_or_lowest.resolve_left fun hfull => ?_
      rw [hzero] at hfull
      exact absurd hfull (by decide)
    rwa [hzero, hlowest] at hrank

/-! ### The size of a quotient -/

theorem shifted_div (num den : ℕ) (q : ℤ) :
    ((num <<< (-q).toNat : ℕ) : ℚ) / ((den <<< q.toNat : ℕ) : ℚ) = num / den * 2 ^ (-q) := by
  simp only [Nat.shiftLeft_eq, Nat.cast_mul, Nat.cast_pow, Nat.cast_ofNat]
  obtain ⟨k, rfl | rfl⟩ := Int.eq_nat_or_neg q
  · simp [div_eq_mul_inv, mul_assoc, mul_comm]
  · simp [mul_div_right_comm]

theorem shifted_lt_iff (num : ℕ) {den : ℕ} (hden : 0 < den) (q : ℤ) :
    num <<< (-q).toNat < den <<< q.toNat ↔ (num : ℚ) / den < 2 ^ q := by
  have hshifted : (0 : ℚ) < (den <<< q.toNat : ℕ) := by
    rw [Nat.shiftLeft_eq]
    positivity
  rw [← Nat.cast_lt (α := ℚ), ← div_lt_one hshifted, shifted_div, zpow_neg,
    mul_inv_lt_iff₀ (by positivity), one_mul]

/-- A quotient lies between two neighbouring powers of two. -/
theorem binaryExponent_spec {num den : ℕ} (hnum : 0 < num) (hden : 0 < den) :
    (2 : ℚ) ^ binaryExponent num den ≤ num / den ∧
      (num : ℚ) / den < 2 ^ (binaryExponent num den + 1) := by
  have hden₀ : (0 : ℚ) < den := Nat.cast_pos.mpr hden
  have hlow : ∀ n : ℕ, 0 < n → (2 : ℚ) ^ (n.log2 : ℤ) ≤ n := fun n hn =>
    mod_cast Nat.log2_self_le (Nat.ne_of_gt hn)
  have hhigh : ∀ n : ℕ, (n : ℚ) < 2 ^ ((n.log2 : ℤ) + 1) := fun n => mod_cast Nat.lt_log2_self
  have hupper : (num : ℚ) / den < 2 ^ ((num.log2 : ℤ) - den.log2 + 1) := by
    rw [div_lt_iff₀ hden₀]
    calc (num : ℚ) < 2 ^ ((num.log2 : ℤ) + 1) := hhigh num
      _ = 2 ^ ((num.log2 : ℤ) - den.log2 + 1) * 2 ^ (den.log2 : ℤ) := by
        rw [← zpow_add₀ two_ne_zero]
        congr 1
        omega
      _ ≤ 2 ^ ((num.log2 : ℤ) - den.log2 + 1) * den := by
        have := hlow den hden
        gcongr
  have hlower : (2 : ℚ) ^ ((num.log2 : ℤ) - den.log2 - 1) ≤ num / den := by
    rw [le_div_iff₀ hden₀]
    calc (2 : ℚ) ^ ((num.log2 : ℤ) - den.log2 - 1) * den
        ≤ 2 ^ ((num.log2 : ℤ) - den.log2 - 1) * 2 ^ ((den.log2 : ℤ) + 1) := by
          have := (hhigh den).le
          gcongr
      _ = 2 ^ (num.log2 : ℤ) := by
        rw [← zpow_add₀ two_ne_zero]
        congr 1
        omega
      _ ≤ num := hlow num hnum
  unfold binaryExponent
  dsimp only
  split
  · next hbelow =>
    rw [shifted_lt_iff num hden] at hbelow
    exact ⟨hlower, by rwa [Int.sub_add_cancel]⟩
  · next habove =>
    rw [shifted_lt_iff num hden] at habove
    exact ⟨not_lt.mp habove, hupper⟩

/-! ### Exact quotients -/

theorem nearestEven_mul (m : ℕ) {den : ℕ} (hden : 0 < den) : nearestEven (m * den) den = m := by
  rw [nearestEven, Nat.mul_mod_left, Nat.mul_div_cancel m hden]
  exact if_pos hden

/-- A quotient with a significand of 53 bits is not rounded. -/
theorem quotientRank_exact {num den m : ℕ} {q : ℤ} (hden : 0 < den) (hm₀ : 0 < m)
    (hm : m < 2 * hiddenBit) (hq : -1074 ≤ q) (hfull : hiddenBit ≤ m ∨ q = -1074)
    (hvalue : (num : ℚ) / den = m * 2 ^ q) :
    quotientRank num den = (q + 1074).toNat * hiddenBit + m := by
  have hnum : 0 < num := by
    refine Nat.pos_of_ne_zero fun hzero => ?_
    have hpos : (0 : ℚ) < m * 2 ^ q := by positivity
    rw [← hvalue, hzero] at hpos
    simp at hpos
  obtain ⟨hlow, hhigh⟩ := binaryExponent_spec hnum hden
  rw [hvalue] at hlow hhigh
  have hbits : ∀ k : ℤ, (2 : ℚ) ^ k * 2 ^ q = 2 ^ (k + q) := fun k =>
    (zpow_add₀ two_ne_zero k q).symm
  have hbelow : binaryExponent num den < 53 + q := by
    refine (zpow_lt_zpow_iff_right₀ (one_lt_two (α := ℚ))).mp (hlow.trans_lt ?_)
    rw [← hbits]
    have hm' : (m : ℚ) < 2 ^ (53 : ℤ) := mod_cast hm
    gcongr
  have habove : hiddenBit ≤ m → 52 + q < binaryExponent num den + 1 := by
    intro hm₁
    refine (zpow_lt_zpow_iff_right₀ (one_lt_two (α := ℚ))).mp (lt_of_le_of_lt ?_ hhigh)
    rw [← hbits]
    have hm' : (2 : ℚ) ^ (52 : ℤ) ≤ m := mod_cast hm₁
    gcongr
  have hexponent : max (binaryExponent num den - 52) (-1074) = q := by
    rcases hfull with hm₁ | rfl
    · have := habove hm₁
      omega
    · omega
  have hshifted : num <<< (-q).toNat = m * (den <<< q.toNat) := by
    have hden' : ((den <<< q.toNat : ℕ) : ℚ) ≠ 0 := by
      rw [Nat.shiftLeft_eq]
      positivity
    have hratio := shifted_div num den q
    rw [hvalue, mul_assoc, ← zpow_add₀ two_ne_zero, Int.add_right_neg, zpow_zero, mul_one,
      div_eq_iff hden'] at hratio
    exact_mod_cast hratio
  have hpos : 0 < den <<< q.toNat := by
    rw [Nat.shiftLeft_eq]
    positivity
  rw [quotientRank, hexponent, hshifted, nearestEven_mul m hpos]

theorem eq_of_rank {x y : Binary64} (hsign : x.negative = y.negative) (hrank : x.rank = y.rank) :
    x = y := by
  cases x
  cases y
  cases hsign
  cases hrank
  rfl

theorem negative_ofQuotient (negative : Bool) (num den : ℕ) :
    (ofQuotient negative num den).negative = negative := by
  unfold ofQuotient
  split <;> rfl

/-- A quotient that is a finite number is rounded to it. -/
theorem ofQuotient_eq {x : Binary64} (hfinite : x.isFinite = true) {num den : ℕ}
    (hden : 0 < den) (hvalue : (num : ℚ) / den = x.distance) :
    ofQuotient x.negative num den = x := by
  have hden₀ : (den : ℚ) ≠ 0 := Nat.cast_ne_zero.mpr (Nat.ne_of_gt hden)
  by_cases hzero : x.isZero = true
  · rw [(isZero_iff x).mp hzero, div_eq_zero_iff, or_iff_left hden₀] at hvalue
    rw [ofQuotient, if_pos (Nat.cast_eq_zero.mp hvalue)]
    exact eq_of_rank rfl (of_decide_eq_true hzero).symm
  · have hdistance : x.distance ≠ 0 := fun h => hzero ((isZero_iff x).mpr h)
    have hnum : num ≠ 0 := by
      rintro rfl
      rw [Nat.cast_zero, zero_div] at hvalue
      exact hdistance hvalue.symm
    have hpos : 0 < x.significand := by
      refine Nat.pos_of_ne_zero fun h => hdistance ?_
      rw [distance, h, Nat.cast_zero, zero_mul]
    have hexact := quotientRank_exact hden hpos x.significand_lt x.exponent_ge x.full_or_lowest
      hvalue
    rw [ofQuotient, if_neg hnum]
    refine eq_of_rank rfl ?_
    rw [← rank_eq] at hexact
    exact (congrArg (min · _) hexact).trans (Nat.min_eq_left (of_decide_eq_true hfinite).le)

/-- A quotient with a significand of 53 bits is a number. -/
theorem ofQuotient_isExact (negative : Bool) {num den m : ℕ} {q : ℤ} (hden : 0 < den)
    (hm₀ : 0 < m) (hm : m < 2 * hiddenBit) (hq : -1074 ≤ q) (hq' : q ≤ 970)
    (hfull : hiddenBit ≤ m ∨ q = -1074) (hvalue : (num : ℚ) / den = m * 2 ^ q) :
    (ofQuotient negative num den).isFinite = true ∧
      (ofQuotient negative num den).distance = num / den := by
  have hnum : num ≠ 0 := by
    rintro rfl
    have : (0 : ℚ) < m * 2 ^ q := by positivity
    simp [← hvalue] at this
  have hexact := quotientRank_exact hden hm₀ hm hq hfull hvalue
  have hrange : (q + 1074).toNat * hiddenBit + m < infinityRank := by
    have hsteps : (q + 1074).toNat * hiddenBit ≤ 2044 * hiddenBit :=
      Nat.mul_le_mul_right _ (by omega)
    have : 2044 * hiddenBit + 2 * hiddenBit < infinityRank := by decide
    omega
  have hrank : (ofQuotient negative num den).rank = (q + 1074).toNat * hiddenBit + m := by
    rw [ofQuotient, if_neg hnum]
    exact (congrArg (min · _) hexact).trans (Nat.min_eq_left hrange.le)
  obtain ⟨hsignificand, hexponent⟩ := parts_of_rank hm hq hfull hrank
  refine ⟨decide_eq_true (hrank ▸ hrange), ?_⟩
  rw [distance, hsignificand, hexponent, hvalue]

theorem ofNat_isExact {n : ℕ} (hn : n < 2 * hiddenBit) :
    (ofNat n).isFinite = true ∧ (ofNat n).distance = n := by
  rcases Nat.eq_zero_or_pos n with rfl | hpos
  · exact ⟨rfl, (distance_zero false).trans Nat.cast_zero.symm⟩
  · have hlog : n.log2 < 53 := (Nat.log2_lt (Nat.ne_of_gt hpos)).mpr hn
    obtain ⟨k, hk⟩ := Nat.exists_eq_add_of_le (Nat.le_of_lt_succ hlog)
    have hfull : hiddenBit ≤ n * 2 ^ k := by
      calc hiddenBit = 2 ^ n.log2 * 2 ^ k := by rw [← Nat.pow_add, ← hk]; rfl
        _ ≤ n * 2 ^ k := Nat.mul_le_mul_right _ (Nat.log2_self_le (Nat.ne_of_gt hpos))
    have hbits : n * 2 ^ k < 2 * hiddenBit := by
      calc n * 2 ^ k < 2 ^ (n.log2 + 1) * 2 ^ k :=
            Nat.mul_lt_mul_of_pos_right Nat.lt_log2_self (Nat.two_pow_pos k)
        _ = 2 * hiddenBit := by
          rw [← Nat.pow_add, Nat.add_right_comm, ← hk]
          rfl
    have hvalue : (n : ℚ) / (1 : ℕ) = (n * 2 ^ k : ℕ) * 2 ^ (-(k : ℤ)) := by
      rw [Nat.cast_one, div_one, Nat.cast_mul, Nat.cast_pow, Nat.cast_ofNat, zpow_neg,
        zpow_natCast, mul_assoc, mul_inv_cancel₀ (by positivity), mul_one]
    have hexact := ofQuotient_isExact false Nat.one_pos (Nat.lt_of_lt_of_le (by decide) hfull)
      hbits (by omega) (by omega) (.inl hfull) hvalue
    rwa [Nat.cast_one, div_one] at hexact

/-! ### Operations -/

theorem significand_pos {x : Binary64} (hzero : x.isZero = false) : 0 < x.significand := by
  refine Nat.pos_of_ne_zero fun h => Bool.false_ne_true (hzero.symm.trans ?_)
  rw [isZero_iff, distance, h, Nat.cast_zero, zero_mul]

/-- The quotient of two numbers is rounded once. -/
theorem div_eq_quotient {x y : Binary64} (hx : x.isFinite = true) (hy : y.isFinite = true)
    (hzero : y.isZero = false) : ∃ num den : ℕ, 0 < den ∧
      x.div y = ofQuotient (x.negative != y.negative) num den ∧
      (num : ℚ) / den = x.distance / y.distance := by
  have hpos := significand_pos hzero
  have hratio := shifted_div x.significand y.significand (-(x.exponent - y.exponent))
  rw [neg_neg, zpow_sub₀ two_ne_zero, div_mul_div_comm] at hratio
  have hden : 0 < y.significand <<< (-(x.exponent - y.exponent)).toNat := by
    rw [Nat.shiftLeft_eq]
    positivity
  refine ⟨_, _, hden, ?_, hratio⟩
  simp only [div, not_nan_of_finite hx, not_nan_of_finite hy, not_infinite_of_finite hx,
    not_infinite_of_finite hy, hzero, Bool.or_self, Bool.false_eq_true, if_false]

/-- A quotient of two numbers that is a number is not rounded. -/
theorem div_eq {x y r : Binary64} (hx : x.isFinite = true) (hy : y.isFinite = true)
    (hr : r.isFinite = true) (hzero : y.isZero = false)
    (hsign : r.negative = (x.negative != y.negative))
    (hvalue : r.distance = x.distance / y.distance) : x.div y = r := by
  obtain ⟨num, den, hden, hquotient, hratio⟩ := div_eq_quotient hx hy hzero
  rw [hquotient, ← hsign]
  exact ofQuotient_eq hr hden (hratio.trans hvalue.symm)

end SourceAudit.Binary64
