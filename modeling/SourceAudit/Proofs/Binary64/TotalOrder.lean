/-
  SourceAudit/Proofs/Binary64/TotalOrder.lean
  ===========================================
  **The total order of numbers.**

  The standard puts all numbers on one line: NaNs with a sign, the negative infinity, the
  finite numbers by their values with `-0` before `+0`, infinity, and the other NaNs
  (`Precedes`).  Since ranks count representable steps, a greater rank is a greater distance
  from zero (`distance_lt_iff`), and the order is the order of `totalRank`
  (`precedes_iff_totalRank`).
-/
import Mathlib.Tactic.Ring
import Mathlib.Tactic.SplitIfs
import SourceAudit.Proofs.Binary64.Exact

namespace SourceAudit.Binary64

/-! ### Distances and ranks -/

/-- A distance in steps of the smallest number. -/
theorem distance_eq_steps (x : Binary64) :
    x.distance = ((x.significand * 2 ^ (x.exponent + 1074).toNat : ℕ) : ℚ) * 2 ^ (-1074 : ℤ) := by
  have hexponent := x.exponent_ge
  have hsum : x.exponent = ((x.exponent + 1074).toNat : ℤ) + (-1074) := by omega
  rw [distance, Nat.cast_mul, Nat.cast_pow, Nat.cast_ofNat, mul_assoc, ← zpow_natCast,
    ← zpow_add₀ two_ne_zero, ← hsum]

theorem steps_lt_of_rank_lt {x y : Binary64} (hrank : x.rank < y.rank) :
    x.significand * 2 ^ (x.exponent + 1074).toNat < y.significand * 2 ^ (y.exponent + 1074).toNat := by
  have hx := x.rank_eq
  have hy := y.rank_eq
  have hxs := x.significand_lt
  have hys := y.significand_lt
  have hye := y.exponent_ge
  generalize hp : (x.exponent + 1074).toNat = p at hx ⊢
  generalize hq : (y.exponent + 1074).toNat = q at hy ⊢
  rcases Nat.lt_trichotomy p q with hlt | rfl | hgt
  · -- a higher exponent outweighs any significand, since the higher number has a full one
    have hfull : hiddenBit ≤ y.significand := by
      rcases y.full_or_lowest with hfull | hlowest
      · exact hfull
      · omega
    calc x.significand * 2 ^ p < 2 * hiddenBit * 2 ^ p :=
          Nat.mul_lt_mul_of_pos_right hxs (Nat.two_pow_pos p)
      _ = hiddenBit * 2 ^ (p + 1) := by ring
      _ ≤ hiddenBit * 2 ^ q := Nat.mul_le_mul_left _ (Nat.pow_le_pow_right (by decide) hlt)
      _ ≤ y.significand * 2 ^ q := Nat.mul_le_mul_right _ hfull
  · have hless : x.significand < y.significand := by omega
    exact Nat.mul_lt_mul_of_pos_right hless (Nat.two_pow_pos p)
  · -- with the higher exponent on the other side the ranks would be the other way round
    have hfull : hiddenBit ≤ x.significand := by
      rcases x.full_or_lowest with hfull | hlowest
      · exact hfull
      · omega
    have hmore : (q + 1) * hiddenBit ≤ p * hiddenBit := Nat.mul_le_mul_right _ hgt
    rw [Nat.add_mul, Nat.one_mul] at hmore
    omega

/-- Numbers of one rank are as far from zero. -/
theorem distance_congr {x y : Binary64} (hrank : x.rank = y.rank) : x.distance = y.distance := by
  rw [distance, distance, significand, significand, exponent, exponent, hrank]

theorem distance_lt_iff {x y : Binary64} : x.distance < y.distance ↔ x.rank < y.rank := by
  have hmono {a b : Binary64} (hrank : a.rank < b.rank) : a.distance < b.distance := by
    rw [distance_eq_steps, distance_eq_steps]
    refine mul_lt_mul_of_pos_right ?_ (by positivity)
    exact_mod_cast steps_lt_of_rank_lt hrank
  constructor
  · intro hdistance
    by_contra hrank
    rcases Nat.lt_or_eq_of_le (Nat.le_of_not_lt hrank) with hlt | heq
    · exact absurd hdistance (not_lt_of_gt (hmono hlt))
    · exact absurd hdistance (not_lt_of_ge (distance_congr heq).le)
  · exact hmono

theorem distance_pos_iff {x : Binary64} : 0 < x.distance ↔ 0 < x.rank := by
  rw [← distance_zero false, distance_lt_iff]
  rfl

theorem value_lt_iff {x y : Binary64} : x.value < y.value ↔ x.ordinal < y.ordinal := by
  have hx := x.distance_nonneg
  have hy := y.distance_nonneg
  rw [value, value, ordinal, ordinal]
  cases x.negative with
  | false =>
    cases y.negative with
    | false =>
      simp only [Bool.false_eq_true, if_false, Int.ofNat_lt]
      exact distance_lt_iff
    | true =>
      simp only [Bool.false_eq_true, if_false, if_true]
      constructor
      · intro hvalue
        linarith
      · intro hordinal
        omega
  | true =>
    cases y.negative with
    | false =>
      simp only [Bool.false_eq_true, if_false, if_true]
      constructor
      · intro hvalue
        have hsome : 0 < x.distance ∨ 0 < y.distance := by
          by_contra hnone
          rw [not_or, not_lt, not_lt] at hnone
          linarith [hnone.1, hnone.2]
        rw [distance_pos_iff, distance_pos_iff] at hsome
        omega
      · intro hordinal
        have hsome : 0 < x.rank ∨ 0 < y.rank := by omega
        rw [← distance_pos_iff, ← distance_pos_iff] at hsome
        rcases hsome with hsome | hsome
        · linarith
        · linarith
    | true =>
      simp only [if_true, neg_lt_neg_iff, Int.ofNat_lt]
      exact distance_lt_iff

/-! ### The line of all numbers -/

/-- The stretches of the line, lowest first: NaNs with a sign, the negative infinity, finite
    numbers, infinity, and the other NaNs. -/
def stretch (x : Binary64) : ℕ :=
  if x.isNaN then if x.negative then 0 else 4
  else if x.isInfinite then if x.negative then 1 else 3
  else 2

/-- `x` stands before `y` in the total order of the standard. -/
inductive Precedes (x y : Binary64) : Prop
  | stretches (hlower : x.stretch < y.stretch)
  | values (hx : x.isFinite = true) (hy : y.isFinite = true) (hless : x.value < y.value)
  | zeros (hx : x.isZero = true) (hy : y.isZero = true) (hsign : x.negative = true)
      (hplain : y.negative = false)
  | payloads (hx : x.isNaN = true) (hy : y.isNaN = true) (hsign : x.negative = y.negative)
      (hless : if x.negative then y.rank < x.rank else x.rank < y.rank)

theorem totalRank_lt_of_stretch {x y : Binary64} (hlower : x.stretch < y.stretch) :
    x.totalRank < y.totalRank := by
  simp only [stretch, isNaN, isInfinite, decide_eq_true_eq] at hlower
  simp only [totalRank]
  split_ifs at hlower ⊢ <;> omega

/-- On one stretch there are NaNs of one sign, one infinity, or finite numbers. -/
theorem same_stretch {x y : Binary64} (hsame : x.stretch = y.stretch) :
    (x.isNaN = true ∧ y.isNaN = true ∧ x.negative = y.negative) ∨ x = y ∨
      (x.isFinite = true ∧ y.isFinite = true) := by
  simp only [stretch, isNaN, isInfinite, isFinite, decide_eq_true_eq] at hsame ⊢
  have hequal : x.negative = y.negative → x.rank = y.rank → x = y := eq_of_rank
  split_ifs at hsame
  all_goals simp_all
  all_goals omega

theorem precedes_iff_totalRank {x y : Binary64} :
    x.Precedes y ↔ x.totalRank < y.totalRank := by
  constructor
  · intro hprecedes
    cases hprecedes with
    | stretches hlower => exact totalRank_lt_of_stretch hlower
    | values hx hy hless =>
      rw [value_lt_iff] at hless
      simp only [ordinal] at hless
      simp only [totalRank]
      split_ifs at hless ⊢ <;> omega
    | zeros hx hy hsign hplain =>
      simp only [isZero, decide_eq_true_eq] at hx hy
      simp [totalRank, hsign, hplain, hx, hy]
    | payloads hx hy hsign hless =>
      simp only [totalRank, ← hsign]
      split_ifs at hless ⊢ <;> omega
  · intro htotal
    rcases Nat.lt_trichotomy x.stretch y.stretch with hlower | hsame | hhigher
    · exact .stretches hlower
    · rcases same_stretch hsame with ⟨hx, hy, hsign⟩ | rfl | ⟨hx, hy⟩
      · refine .payloads hx hy hsign ?_
        simp only [totalRank, ← hsign] at htotal
        split_ifs at htotal ⊢ <;> omega
      · exact absurd htotal (Int.lt_irrefl _)
      · by_cases hless : x.value < y.value
        · exact .values hx hy hless
        · rw [value_lt_iff] at hless
          simp only [ordinal] at hless
          simp only [totalRank] at htotal
          -- the values agree, so only the signs of two zeros are left to differ
          have hsign : x.negative = true ∧ y.negative = false := by
            cases hxsign : x.negative with
            | false =>
              simp only [hxsign, Bool.false_eq_true, if_false] at hless htotal
              split_ifs at hless htotal <;> omega
            | true =>
              cases hysign : y.negative with
              | false => exact ⟨rfl, rfl⟩
              | true =>
                simp only [hxsign, hysign, if_true] at hless htotal
                omega
          simp only [hsign, Bool.false_eq_true, if_false, if_true] at hless htotal
          refine .zeros ?_ ?_ hsign.1 hsign.2
          · rw [isZero, decide_eq_true_eq]
            omega
          · rw [isZero, decide_eq_true_eq]
            omega
    · exact absurd htotal (Int.lt_asymm (totalRank_lt_of_stretch hhigher))

/-- Numbers in one place of the order are the same to the last bit. -/
theorem totalRank_inj {x y : Binary64} : x.totalRank = y.totalRank ↔ x = y := by
  constructor
  · intro hplace
    simp only [totalRank] at hplace
    cases hx : x.negative with
    | false =>
      cases hy : y.negative with
      | false =>
        simp only [hx, hy, Bool.false_eq_true, if_false] at hplace
        exact eq_of_rank (hx.trans hy.symm) (by omega)
      | true =>
        simp only [hx, hy, Bool.false_eq_true, if_false, if_true] at hplace
        omega
    | true =>
      cases hy : y.negative with
      | false =>
        simp only [hx, hy, Bool.false_eq_true, if_false, if_true] at hplace
        omega
      | true =>
        simp only [hx, hy, if_true] at hplace
        exact eq_of_rank (hx.trans hy.symm) (by omega)
  · rintro rfl
    rfl

/-- The marks on the line: `-NaN`, `-∞`, `-0`, `+0`, `+∞`, `NaN`. -/
theorem precedes_marks {low high : Binary64} (hlow : low.isNaN = true) (hsign : low.negative = true)
    (hhigh : high.isNaN = true) (hplain : high.negative = false) :
    [low, infinity true, zero true, zero false, infinity false, high].IsChain Precedes := by
  rw [isNaN, decide_eq_true_eq] at hlow hhigh
  simp only [List.isChain_cons_cons, List.isChain_singleton, precedes_iff_totalRank, and_true]
  simp only [totalRank, hsign, hplain, infinity, zero, Bool.false_eq_true, if_false, if_true]
  refine ⟨by omega, by decide, by decide, by decide, by omega⟩

end SourceAudit.Binary64
