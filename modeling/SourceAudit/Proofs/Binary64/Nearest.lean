/-
  SourceAudit/Proofs/Binary64/Nearest.lean
  ========================================
  **How far rounding goes.**

  A quotient of ordinary size is rounded to a number at most half a gap away, and to one
  with an even significand when it is just half a gap (`ofQuotient_near`).  Products and
  quotients of numbers are such quotients (`mul_eq_quotient`, `div_eq_quotient`), so one
  operation is off by a factor of two at most (`Between.mul`, `Between.div`).
-/
import Mathlib.Data.Nat.Cast.Order.Field
import Mathlib.Tactic.NormNum
import Mathlib.Tactic.Ring
import SourceAudit.Proofs.Binary64.Exact

namespace SourceAudit.Binary64

/-! ### The nearest integer -/

/-- The rounded integer against the quotient, both times the denominator. -/
theorem nearestEven_bounds (num : ℕ) {den : ℕ} (hden : 0 < den) :
    2 * (nearestEven num den * den) ≤ 2 * num + den ∧
      2 * num ≤ 2 * (nearestEven num den * den) + den ∧
      (2 * (nearestEven num den * den) = 2 * num + den ∨
        2 * num = 2 * (nearestEven num den * den) + den → nearestEven num den % 2 = 0) := by
  have hsplit := Nat.div_add_mod num den
  have hrest := Nat.mod_lt num hden
  rw [Nat.mul_comm] at hsplit
  unfold nearestEven
  dsimp only
  split
  · omega
  · split
    · rw [Nat.add_mul, Nat.one_mul]
      omega
    · rcases Nat.mod_two_eq_zero_or_one (num / den) with heven | hodd
      · rw [heven, Nat.add_zero]
        omega
      · rw [hodd, Nat.add_mul, Nat.one_mul]
        omega

/-- The nearest integer is at most a half away, and even when it is just a half. -/
theorem nearestEven_near (num : ℕ) {den : ℕ} (hden : 0 < den) :
    |(nearestEven num den : ℚ) - num / den| ≤ 1 / 2 ∧
      (|(nearestEven num den : ℚ) - num / den| = 1 / 2 → nearestEven num den % 2 = 0) := by
  obtain ⟨hlow, hhigh, heven⟩ := nearestEven_bounds num hden
  have hden₀ : (0 : ℚ) < den := Nat.cast_pos.mpr hden
  have hscaled : (nearestEven num den : ℚ) - num / den =
      ((nearestEven num den * den : ℕ) - (num : ℕ)) / den := by
    rw [Nat.cast_mul]
    field_simp
  have hlow' : 2 * ((nearestEven num den * den : ℕ) : ℚ) ≤ 2 * num + den := mod_cast hlow
  have hhigh' : 2 * (num : ℚ) ≤ 2 * ((nearestEven num den * den : ℕ) : ℚ) + den := mod_cast hhigh
  rw [hscaled, abs_div, abs_of_pos hden₀, div_le_iff₀ hden₀, div_eq_iff hden₀.ne']
  constructor
  · rw [abs_le]
    constructor
    · linarith
    · linarith
  · intro hhalf
    refine heven ?_
    rcases (abs_eq (by positivity)).mp hhalf with hup | hdown
    · left
      have : 2 * ((nearestEven num den * den : ℕ) : ℚ) = 2 * num + den := by linarith
      exact_mod_cast this
    · right
      have : 2 * (num : ℚ) = 2 * ((nearestEven num den * den : ℕ) : ℚ) + den := by linarith
      exact_mod_cast this

/-! ### The nearest number -/

/-- A finite number with a full significand that is at most half a gap away. -/
structure Near (x : Binary64) (v : ℚ) : Prop where
  finite : x.isFinite = true
  full : hiddenBit ≤ x.significand
  close : |x.distance - v| ≤ 2 ^ x.exponent / 2
  even_of_half : |x.distance - v| = 2 ^ x.exponent / 2 → x.significand % 2 = 0

/-- A full significand may be rounded up to the next power of two. -/
theorem near_of_rank {x : Binary64} {v : ℚ} {m : ℕ} {q : ℤ} (hlow : -1074 ≤ q) (hhigh : q ≤ 100)
    (hfull : hiddenBit ≤ m) (hm : m ≤ 2 * hiddenBit)
    (hrank : x.rank = (q + 1074).toNat * hiddenBit + m)
    (hclose : |m * 2 ^ q - v| ≤ 2 ^ q / 2)
    (heven : |m * 2 ^ q - v| = 2 ^ q / 2 → m % 2 = 0) : Near x v := by
  have hsteps : (q + 1074).toNat * hiddenBit ≤ 1174 * hiddenBit :=
    Nat.mul_le_mul_right _ (by omega)
  have hfinite : x.isFinite = true := by
    have : 1174 * hiddenBit + 2 * hiddenBit < infinityRank := by decide
    exact decide_eq_true (by omega)
  rcases Nat.lt_or_eq_of_le hm with hless | rfl
  · obtain ⟨hsignificand, hexponent⟩ := parts_of_rank hless hlow (.inl hfull) hrank
    refine ⟨hfinite, hsignificand ▸ hfull, ?_, ?_⟩
    · rwa [distance, hsignificand, hexponent]
    · rwa [distance, hsignificand, hexponent]
  · have hnext : (q + 1 + 1074).toNat * hiddenBit + hiddenBit =
        (q + 1074).toNat * hiddenBit + 2 * hiddenBit := by
      have hstep : (q + 1 + 1074).toNat = (q + 1074).toNat + 1 := by omega
      rw [hstep, Nat.add_mul]
      omega
    obtain ⟨hsignificand, hexponent⟩ := parts_of_rank (x := x) (m := hiddenBit) (q := q + 1)
      (by decide) (by omega) (.inl (Nat.le_refl _)) (hrank.trans hnext.symm)
    have hdouble : (2 : ℚ) ^ (q + 1) = 2 * 2 ^ q := by
      rw [zpow_add_one₀ two_ne_zero, mul_comm]
    have hdistance : x.distance = (2 * hiddenBit : ℕ) * 2 ^ q := by
      rw [distance, hsignificand, hexponent, hdouble]
      push_cast
      ring
    have hpos : (0 : ℚ) < 2 ^ q := by positivity
    refine ⟨hfinite, hsignificand.ge, ?_, ?_⟩
    · rw [hdistance, hexponent, hdouble]
      linarith
    · intro hhalf
      rw [hsignificand]
      decide

/-- In gaps a quotient has 53 bits in front of the point. -/
theorem quotient_in_gaps {num den : ℕ} (hnum : 0 < num) (hden : 0 < den) :
    (hiddenBit : ℚ) ≤ num / den * 2 ^ (-(binaryExponent num den - 52)) ∧
      (num : ℚ) / den * 2 ^ (-(binaryExponent num den - 52)) < (2 * hiddenBit : ℕ) := by
  obtain ⟨hlow, hhigh⟩ := binaryExponent_spec hnum hden
  have hbits (k : ℤ) : (2 : ℚ) ^ (binaryExponent num den + k) *
      2 ^ (-(binaryExponent num den - 52)) = 2 ^ (k + 52) := by
    rw [← zpow_add₀ two_ne_zero]
    congr 1
    omega
  constructor
  · calc (hiddenBit : ℚ) = 2 ^ ((0 : ℤ) + 52) := by norm_num [hiddenBit]
      _ = 2 ^ binaryExponent num den * 2 ^ (-(binaryExponent num den - 52)) := by
        rw [← hbits 0, add_zero]
      _ ≤ num / den * 2 ^ (-(binaryExponent num den - 52)) := by gcongr
  · calc (num : ℚ) / den * 2 ^ (-(binaryExponent num den - 52))
        < 2 ^ (binaryExponent num den + 1) * 2 ^ (-(binaryExponent num den - 52)) := by gcongr
      _ = 2 ^ ((1 : ℤ) + 52) := hbits 1
      _ = (2 * hiddenBit : ℕ) := by norm_num [hiddenBit]

/-- What is at most a half away lies between the same integers. -/
theorem le_of_close {m low high : ℕ} {v : ℚ} (hclose : |(m : ℚ) - v| ≤ 1 / 2) (hlow : low ≤ v)
    (hhigh : v < high) : low ≤ m ∧ m ≤ high := by
  obtain ⟨hbelow, habove⟩ := abs_le.mp hclose
  have hfirst : (low : ℚ) < (m + 1 : ℕ) := by
    rw [Nat.cast_add_one]
    linarith
  have hsecond : (m : ℚ) < (high + 1 : ℕ) := by
    rw [Nat.cast_add_one]
    linarith
  exact ⟨Nat.le_of_lt_succ (mod_cast hfirst), Nat.le_of_lt_succ (mod_cast hsecond)⟩

theorem distance_in_gaps (m v : ℚ) (q : ℤ) : |m * 2 ^ q - v| = |m - v * 2 ^ (-q)| * 2 ^ q := by
  have hpos : (0 : ℚ) < 2 ^ q := by positivity
  have hback : v * 2 ^ (-q) * 2 ^ q = v := by
    rw [mul_assoc, ← zpow_add₀ two_ne_zero, Int.add_left_neg, zpow_zero, mul_one]
  rw [← abs_of_pos hpos, ← abs_mul, abs_of_pos hpos, sub_mul, hback]

/-- A quotient of ordinary size is rounded to a nearest number. -/
theorem ofQuotient_near (negative : Bool) {num den : ℕ} (hden : 0 < den)
    (hlow : (2 : ℚ) ^ (-100 : ℤ) ≤ num / den) (hhigh : (num : ℚ) / den < 2 ^ (100 : ℤ)) :
    Near (ofQuotient negative num den) (num / den) := by
  have hnum : 0 < num := by
    refine Nat.pos_of_ne_zero ?_
    rintro rfl
    rw [Nat.cast_zero, zero_div] at hlow
    exact absurd hlow (not_le.mpr (by positivity))
  obtain ⟨hpower, hnext⟩ := binaryExponent_spec hnum hden
  have hlowest : -100 < binaryExponent num den + 1 :=
    (zpow_lt_zpow_iff_right₀ (one_lt_two (α := ℚ))).mp (hlow.trans_lt hnext)
  have hhighest : binaryExponent num den < 100 :=
    (zpow_lt_zpow_iff_right₀ (one_lt_two (α := ℚ))).mp (hpower.trans_lt hhigh)
  obtain ⟨hleast, hmost⟩ := quotient_in_gaps hnum hden
  obtain ⟨q, hq⟩ : ∃ q : ℤ, q = binaryExponent num den - 52 := ⟨_, rfl⟩
  rw [← hq] at hleast hmost
  have hexponent : max (binaryExponent num den - 52) (-1074) = q := by omega
  have hpos : 0 < den <<< q.toNat := by
    rw [Nat.shiftLeft_eq]
    positivity
  obtain ⟨hclose, heven⟩ := nearestEven_near (num <<< (-q).toNat) hpos
  obtain ⟨m, hm⟩ : ∃ m, m = nearestEven (num <<< (-q).toNat) (den <<< q.toNat) := ⟨_, rfl⟩
  rw [← hm, shifted_div] at hclose heven
  obtain ⟨hfull, hsmall⟩ := le_of_close hclose hleast hmost
  have hgap : (0 : ℚ) < 2 ^ q := by positivity
  have hrank : quotientRank num den = (q + 1074).toNat * hiddenBit + m := by
    rw [quotientRank, hexponent, hm]
  have hrange : (q + 1074).toNat * hiddenBit ≤ 1174 * hiddenBit :=
    Nat.mul_le_mul_right _ (by omega)
  have hinfinity : 1174 * hiddenBit + 2 * hiddenBit < infinityRank := by decide
  refine near_of_rank (q := q) (by omega) (by omega) hfull hsmall ?_ ?_ ?_
  · rw [ofQuotient, if_neg hnum.ne']
    exact (congrArg (min · _) hrank).trans (Nat.min_eq_left (by omega))
  · rw [distance_in_gaps]
    linarith [mul_le_mul_of_nonneg_right hclose hgap.le]
  · intro hhalf
    refine heven ?_
    rw [distance_in_gaps] at hhalf
    refine mul_right_cancel₀ hgap.ne' ?_
    rw [hhalf]
    ring

theorem Near.bounds {x : Binary64} {v : ℚ} (h : Near x v) :
    v / 2 ≤ x.distance ∧ x.distance ≤ 2 * v := by
  obtain ⟨hbelow, habove⟩ := abs_le.mp h.close
  have hgap : (2 : ℚ) ^ x.exponent ≤ x.distance := by
    have hfull : (1 : ℚ) ≤ x.significand :=
      mod_cast Nat.le_trans (show 1 ≤ hiddenBit by decide) h.full
    exact le_mul_of_one_le_left (by positivity) hfull
  constructor
  · linarith
  · linarith

/-! ### Operations -/

/-- The product of two numbers is rounded once. -/
theorem mul_eq_quotient {x y : Binary64} (hx : x.isFinite = true) (hy : y.isFinite = true) :
    ∃ num den : ℕ, 0 < den ∧ x.mul y = ofQuotient (x.negative != y.negative) num den ∧
      (num : ℚ) / den = x.distance * y.distance := by
  have hratio := shifted_div (x.significand * y.significand) 1 (-(x.exponent + y.exponent))
  rw [neg_neg, Nat.cast_one, div_one, Nat.cast_mul, zpow_add₀ two_ne_zero, mul_mul_mul_comm]
    at hratio
  have hden : 0 < 1 <<< (-(x.exponent + y.exponent)).toNat := by
    rw [Nat.shiftLeft_eq]
    positivity
  refine ⟨_, _, hden, ?_, hratio⟩
  simp only [mul, not_nan_of_finite hx, not_nan_of_finite hy, not_infinite_of_finite hx,
    not_infinite_of_finite hy, ofScaled, Bool.or_self, Bool.false_eq_true, if_false]

/-- A finite number that is not negative and lies between two bounds. -/
structure Between (x : Binary64) (low high : ℚ) : Prop where
  finite : x.isFinite = true
  positive : x.negative = false
  low_le : low ≤ x.distance
  le_high : x.distance ≤ high

theorem Between.weaken {x : Binary64} {low high low' high' : ℚ} (hx : Between x low high)
    (hlow : low' ≤ low) (hhigh : high ≤ high') : Between x low' high' :=
  ⟨hx.finite, hx.positive, hlow.trans hx.low_le, hx.le_high.trans hhigh⟩

theorem between_ofNat {n : ℕ} (hn : n < 2 * hiddenBit) : Between (ofNat n) n n :=
  ⟨(ofNat_isExact hn).1, negative_ofQuotient .., (ofNat_isExact hn).2.ge, (ofNat_isExact hn).2.le⟩

section

variable {x y : Binary64} {a b c d : ℚ}

theorem between_ofQuotient {num den : ℕ} (hden : 0 < den) (hlow : a ≤ num / den)
    (hhigh : (num : ℚ) / den ≤ b) (ha : (2 : ℚ) ^ (-100 : ℤ) ≤ a) (hb : b < 2 ^ (100 : ℤ)) :
    Between (ofQuotient false num den) (a / 2) (2 * b) := by
  have hnear := ofQuotient_near false hden (ha.trans hlow) (hhigh.trans_lt hb)
  obtain ⟨hhalf, hdouble⟩ := hnear.bounds
  refine ⟨hnear.finite, negative_ofQuotient .., ?_, ?_⟩
  · linarith
  · linarith

/-- A product is at most doubled and at most halved by its rounding. -/
theorem Between.mul (hx : Between x a b) (hy : Between y c d) (ha : 0 ≤ a) (hc : 0 ≤ c)
    (hlow : (2 : ℚ) ^ (-100 : ℤ) ≤ a * c) (hhigh : b * d < 2 ^ (100 : ℤ)) :
    Between (x.mul y) (a * c / 2) (2 * (b * d)) := by
  obtain ⟨num, den, hden, hproduct, hvalue⟩ := mul_eq_quotient hx.finite hy.finite
  rw [hproduct, hx.positive, hy.positive]
  refine between_ofQuotient hden ?_ ?_ hlow hhigh
  · rw [hvalue]
    exact mul_le_mul hx.low_le hy.low_le hc (ha.trans hx.low_le)
  · rw [hvalue]
    exact mul_le_mul hx.le_high hy.le_high y.distance_nonneg (x.distance_nonneg.trans hx.le_high)

/-- So is a quotient. -/
theorem Between.div (hx : Between x a b) (hy : Between y c d) (ha : 0 ≤ a) (hc : 0 < c)
    (hlow : (2 : ℚ) ^ (-100 : ℤ) ≤ a / d) (hhigh : b / c < 2 ^ (100 : ℤ)) :
    Between (x.div y) (a / d / 2) (2 * (b / c)) := by
  have hpos : 0 < y.distance := hc.trans_le hy.low_le
  have hzero : y.isZero = false := by
    rw [← Bool.not_eq_true, isZero_iff]
    exact hpos.ne'
  obtain ⟨num, den, hden, hquotient, hvalue⟩ := div_eq_quotient hx.finite hy.finite hzero
  rw [hquotient, hx.positive, hy.positive]
  refine between_ofQuotient hden ?_ ?_ hlow hhigh
  · rw [hvalue]
    exact div_le_div₀ (ha.trans hx.low_le) hx.low_le hpos hy.le_high
  · rw [hvalue]
    exact div_le_div₀ (x.distance_nonneg.trans hx.le_high) hx.le_high hc hy.low_le

/-- A number of ordinary size is rounded to a natural number. -/
theorem Between.roundHalfAway (hx : Between x a b) (hb : b < hiddenBit) :
    ∃ n : ℕ, x.roundHalfAway = ofNat n ∧ (n : ℚ) ≤ b + 1 := by
  have hexponent : x.exponent < 0 := by
    refine lt_of_not_ge fun hwhole => ?_
    have hfull := x.full_or_lowest.resolve_right (by omega)
    have hgap : (1 : ℚ) ≤ 2 ^ x.exponent := one_le_zpow₀ one_le_two hwhole
    have hlarge : (hiddenBit : ℚ) ≤ x.distance := by
      calc (hiddenBit : ℚ) ≤ x.significand := Nat.cast_le.mpr hfull
        _ ≤ x.distance := le_mul_of_one_le_right (Nat.cast_nonneg _) hgap
    linarith [hx.le_high]
  obtain ⟨unit, hunit⟩ : ∃ unit, unit = 1 <<< (-x.exponent).toNat := ⟨_, rfl⟩
  have hpos : 0 < unit := by
    rw [hunit, Nat.shiftLeft_eq]
    positivity
  have hdistance : (x.significand : ℚ) = x.distance * unit := by
    obtain ⟨k, hk⟩ := Int.eq_ofNat_of_zero_le (show 0 ≤ -x.exponent by omega)
    have hdown : x.exponent = -(k : ℤ) := by omega
    rw [hunit, hk, Int.toNat_natCast, Nat.one_shiftLeft, distance, hdown, Nat.cast_pow,
      Nat.cast_ofNat, zpow_neg, zpow_natCast, mul_assoc, inv_mul_cancel₀ (by positivity), mul_one]
  refine ⟨(2 * x.significand + unit) / (2 * unit), ?_, ?_⟩
  · rw [Binary64.roundHalfAway, hx.finite, decide_eq_true hexponent, Bool.and_self, if_pos rfl,
      hx.positive, ← hunit]
    rfl
  · have hunit₀ : (0 : ℚ) < unit := Nat.cast_pos.mpr hpos
    calc (((2 * x.significand + unit) / (2 * unit) : ℕ) : ℚ)
        ≤ ((2 * x.significand + unit : ℕ) : ℚ) / ((2 * unit : ℕ) : ℚ) := Nat.cast_div_le
      _ = x.distance + 1 / 2 := by
        push_cast
        rw [hdistance]
        field_simp
      _ ≤ b + 1 := by linarith [hx.le_high]

end

end SourceAudit.Binary64
