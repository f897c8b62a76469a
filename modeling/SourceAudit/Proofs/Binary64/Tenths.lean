/-
  SourceAudit/Proofs/Binary64/Tenths.lean
  =======================================
  **How numbers with one decimal place are written.**

  The number nearest to `r / 10` is off by at most five units in ten times its significand
  (`NearTenth`).  Where `r / 10` is not whole, no multiple of a power of ten is that near
  (`gridHit_coarse`), and of the tenths only `r` is (`NearTenth.gridHit_eq`).  So the fewest digits
  are those of `r` (`NearTenth.shortest_eq`), and inside JSON documents they stand around a point
  (`jsonText_tenth`).
-/
import SourceAudit.Binary64.Decimal
import SourceAudit.Proofs.Binary64.Nearest

namespace SourceAudit.Binary64

/-- The number nearest to `r / 10`. -/
def tenth (r : ℕ) : Binary64 := (ofNat r).div (ofNat 10)

/-- Ten times a whole number, divided by ten. -/
theorem tenth_eq {x : Binary64} (hfinite : x.isFinite = true) {n : ℕ} (hn : x.distance = n)
    (hsmall : n < 10 ^ 14) (hsign : x.negative = false) : tenth (10 * n) = x := by
  obtain ⟨hfinite₁, hdistance₁⟩ := ofNat_isExact (n := 10 * n)
    (Nat.lt_trans (by omega) (show 10 ^ 15 < 2 * hiddenBit by decide))
  obtain ⟨hfinite₂, hdistance₂⟩ := ofNat_isExact (n := 10) (by decide)
  rw [tenth, div_eq hfinite₁ hfinite₂ hfinite (by decide)]
  · rw [hsign, ofNat, ofNat, negative_ofQuotient, negative_ofQuotient]
    rfl
  · rw [hn, hdistance₁, hdistance₂]
    push_cast
    field_simp

/-! ### The parts of a tenth -/

/-- A number written with `k` bits behind the point that is nearest to `r / 10`. -/
structure NearTenth (x : Binary64) (r k : ℕ) : Prop where
  exponent_eq : x.exponent = -(k : ℤ)
  few : 5 ≤ k
  many : k ≤ 58
  full : hiddenBit ≤ x.significand
  below : 10 * x.significand ≤ r * 2 ^ k + 5
  above : r * 2 ^ k ≤ 10 * x.significand + 5
  even_of_half : 10 * x.significand = r * 2 ^ k + 5 ∨ r * 2 ^ k = 10 * x.significand + 5 →
    x.significand % 2 = 0

theorem tenth_near {r : ℕ} (hr : 0 < r) (hsmall : r < 10 ^ 15) :
    (tenth r).negative = false ∧ Near (tenth r) (r / 10) := by
  have hr' := between_ofNat (n := r) (hsmall.trans (by decide))
  have hten := between_ofNat (n := 10) (by decide)
  have hdistance : (ofNat r).distance / (ofNat 10).distance = r / 10 := by
    rw [(ofNat_isExact (hsmall.trans (by decide))).2, (ofNat_isExact (by decide)).2,
      Nat.cast_ofNat]
  obtain ⟨num, den, hden, hquotient, hvalue⟩ :=
    div_eq_quotient hr'.finite hten.finite (by decide)
  rw [hr'.positive, hten.positive] at hquotient
  rw [hdistance] at hvalue
  have hone : (1 : ℚ) ≤ r := mod_cast hr
  have hmost : (r : ℚ) < 10 ^ 15 := mod_cast hsmall
  rw [tenth, hquotient]
  refine ⟨negative_ofQuotient .., ?_⟩
  rw [← hvalue]
  refine ofQuotient_near _ hden ?_ ?_
  · rw [hvalue]
    calc (2 : ℚ) ^ (-100 : ℤ) ≤ 2 ^ (-4 : ℤ) := zpow_le_zpow_right₀ one_le_two (by decide)
      _ = 1 / 16 := by norm_num
      _ ≤ r / 10 := by linarith
  · rw [hvalue]
    calc (r : ℚ) / 10 < 1125899906842624 := by linarith
      _ = 2 ^ (50 : ℤ) := by norm_num
      _ ≤ 2 ^ (100 : ℤ) := zpow_le_zpow_right₀ one_le_two (by decide)

theorem tenth_isFinite {r : ℕ} (hsmall : r < 10 ^ 15) : (tenth r).isFinite = true := by
  rcases Nat.eq_zero_or_pos r with rfl | hr
  · decide
  · exact (tenth_near hr hsmall).2.finite

/-- The gaps around a tenth are at most a 32nd. -/
theorem Near.tenth_exponent {x : Binary64} {r : ℕ} (hnear : Near x (r / 10)) (hr : 0 < r)
    (hsmall : r < 10 ^ 15) : -59 < x.exponent ∧ x.exponent < -4 := by
  have hone : (1 : ℚ) ≤ r := mod_cast hr
  have hmost : (r : ℚ) < 10 ^ 15 := mod_cast hsmall
  obtain ⟨hhalf, hdouble⟩ := hnear.bounds
  have hfull : (2 : ℚ) ^ (52 : ℤ) ≤ x.significand := mod_cast hnear.full
  have hbits : (x.significand : ℚ) < 2 ^ (53 : ℤ) := mod_cast x.significand_lt
  have hgap : (0 : ℚ) < 2 ^ x.exponent := by positivity
  have hhigh : (2 : ℚ) ^ (52 + x.exponent) < 2 ^ (48 : ℤ) := by
    calc (2 : ℚ) ^ (52 + x.exponent) = 2 ^ (52 : ℤ) * 2 ^ x.exponent := zpow_add₀ two_ne_zero ..
      _ ≤ x.distance := mul_le_mul_of_nonneg_right hfull hgap.le
      _ < 2 ^ (48 : ℤ) := by linarith
  have hlow : (2 : ℚ) ^ (-5 : ℤ) < 2 ^ (53 + x.exponent) := by
    calc (2 : ℚ) ^ (-5 : ℤ) = 1 / 32 := by norm_num
      _ < x.distance := by linarith
      _ < 2 ^ (53 : ℤ) * 2 ^ x.exponent := mul_lt_mul_of_pos_right hbits hgap
      _ = 2 ^ (53 + x.exponent) := (zpow_add₀ two_ne_zero ..).symm
  rw [zpow_lt_zpow_iff_right₀ one_lt_two] at hlow hhigh
  exact ⟨by omega, by omega⟩

theorem tenth_nearTenth {r : ℕ} (hr : 0 < r) (hsmall : r < 10 ^ 15) :
    ∃ k, NearTenth (tenth r) r k := by
  obtain ⟨-, hnear⟩ := tenth_near hr hsmall
  generalize tenth r = x at hnear
  obtain ⟨hlow, hhigh⟩ := hnear.tenth_exponent hr hsmall
  obtain ⟨k, hk⟩ := Int.eq_ofNat_of_zero_le (show 0 ≤ -x.exponent by omega)
  have hexponent : x.exponent = -(k : ℤ) := by omega
  have hunit : (0 : ℚ) < 2 ^ k := by positivity
  -- the difference in fifths of half a gap
  have hscaled : x.distance - r / 10 =
      ((10 * x.significand : ℕ) - (r * 2 ^ k : ℕ) : ℚ) / (10 * 2 ^ k) := by
    rw [distance, hexponent, zpow_neg, zpow_natCast]
    push_cast
    field_simp
  have hwhole : (2 : ℚ) ^ x.exponent / 2 = 5 / (10 * 2 ^ k) := by
    rw [hexponent, zpow_neg, zpow_natCast]
    field_simp
    norm_num
  have hclose := hnear.close
  have heven := hnear.even_of_half
  rw [hscaled, hwhole, abs_div, abs_of_pos (show (0 : ℚ) < 10 * 2 ^ k by positivity)]
    at hclose heven
  rw [div_le_div_iff_of_pos_right (by positivity)] at hclose
  obtain ⟨hbelow, habove⟩ := abs_le.mp hclose
  refine ⟨k, hexponent, by omega, by omega, hnear.full, ?_, ?_, ?_⟩
  · have : ((10 * x.significand : ℕ) : ℚ) ≤ ((r * 2 ^ k + 5 : ℕ) : ℚ) := by
      push_cast at habove ⊢
      linarith
    exact_mod_cast this
  · have : ((r * 2 ^ k : ℕ) : ℚ) ≤ ((10 * x.significand + 5 : ℕ) : ℚ) := by
      push_cast at hbelow ⊢
      linarith
    exact_mod_cast this
  · intro hhalf
    refine heven ?_
    congr 1
    rcases hhalf with hup | hdown
    · rw [hup]
      push_cast
      norm_num
    · rw [hdown]
      push_cast
      norm_num

/-! ### The search for the fewest digits -/

/-- Whether a neighbour on a grid is within reach: a significand that is even reaches all the
    way. -/
def reaches (m distance limit : ℕ) : Bool :=
  if m % 2 = 0 then decide (4 * m * distance ≤ limit) else decide (4 * m * distance < limit)

section

variable {m distance limit : ℕ}

theorem reaches_of_lt (hless : 4 * m * distance < limit) : reaches m distance limit = true := by
  unfold reaches
  split
  · exact decide_eq_true (Nat.le_of_lt hless)
  · exact decide_eq_true hless

theorem reaches_of_even (heven : m % 2 = 0) (hle : 4 * m * distance ≤ limit) :
    reaches m distance limit = true := by
  rw [reaches, if_pos heven]
  exact decide_eq_true hle

theorem not_reaches (hmore : limit < 4 * m * distance) : reaches m distance limit = false := by
  unfold reaches
  split
  · exact decide_eq_false (by omega)
  · exact decide_eq_false (by omega)

end

section

variable (tie : TieBreak) {m low a b : ℕ}

theorem gridHit_none (hbelow : reaches m (a - a / b * b) (low * a) = false)
    (habove : reaches m ((a / b + 1) * b - a) (2 * a) = false) :
    gridHit tie m low a b = none := by
  unfold reaches at hbelow habove
  simp only [gridHit, hbelow, habove]

theorem gridHit_floor (hbelow : reaches m (a - a / b * b) (low * a) = true)
    (habove : reaches m ((a / b + 1) * b - a) (2 * a) = false) :
    gridHit tie m low a b = some (a / b) := by
  unfold reaches at hbelow habove
  simp only [gridHit, hbelow, habove]

theorem gridHit_next (hbelow : reaches m (a - a / b * b) (low * a) = false)
    (habove : reaches m ((a / b + 1) * b - a) (2 * a) = true) :
    gridHit tie m low a b = some (a / b + 1) := by
  unfold reaches at hbelow habove
  simp only [gridHit, hbelow, habove]

end

/-- Only the number itself is near enough on a grid that is not finer than its gaps. -/
theorem gridHit_coarse (tie : TieBreak) {m low b : ℕ} (hm : 0 < m) (hlow : low ≤ 2) (hb : 0 < b)
    (hdivides : ¬ b ∣ m) : gridHit tie m low m b = none := by
  have hfar {d q : ℕ} (hdistance : 0 < d) (hquarters : q ≤ 2) : reaches m d (q * m) = false := by
    refine not_reaches ?_
    calc q * m ≤ 2 * m := Nat.mul_le_mul_right m hquarters
      _ < 4 * m := by omega
      _ ≤ 4 * m * d := Nat.le_mul_of_pos_right _ hdistance
  have hsplit := Nat.div_add_mod m b
  have hrest := Nat.mod_lt m hb
  have hpart : 0 < m % b := Nat.pos_of_ne_zero fun h => hdivides (Nat.dvd_of_mod_eq_zero h)
  rw [Nat.mul_comm] at hsplit
  refine gridHit_none tie (hfar ?_ hlow) (hfar ?_ (Nat.le_refl 2))
  · omega
  · rw [Nat.add_mul, Nat.one_mul]
    omega

section

variable {x : Binary64} {r k : ℕ} (h : NearTenth x r k)

include h

theorem NearTenth.unit_le : 32 ≤ 2 ^ k :=
  Nat.pow_le_pow_right (show 0 < 2 by decide) h.few

theorem NearTenth.not_dvd (hr : ¬ 10 ∣ r) : ¬ 2 ^ k ∣ x.significand := by
  have hunit := h.unit_le
  rintro ⟨n, hn⟩
  have hbelow := h.below
  have habove := h.above
  have hwhole : 10 * x.significand = 10 * n * 2 ^ k := by
    rw [hn]
    ring
  rw [hwhole] at hbelow habove
  have hle : 10 * n < r + 1 := by
    refine Nat.lt_of_mul_lt_mul_right (a := 2 ^ k) ?_
    rw [Nat.add_mul]
    omega
  have hge : r < 10 * n + 1 := by
    refine Nat.lt_of_mul_lt_mul_right (a := 2 ^ k) ?_
    rw [Nat.add_mul]
    omega
  exact hr ⟨n, by omega⟩

/-- Below a power of two the gaps are half as wide, but such a number is no rounded tenth. -/
theorem NearTenth.quarters :
    x.lowerQuarters = 2 ∨ x.lowerQuarters = 1 ∧ 10 * x.significand ≤ r * 2 ^ k := by
  unfold lowerQuarters
  split
  · next hpower =>
    refine .inr ⟨rfl, ?_⟩
    rw [Bool.and_eq_true, decide_eq_true_eq, decide_eq_true_eq] at hpower
    have hsignificand : x.significand = hiddenBit := by
      rw [significand, if_neg (by omega), hpower.2, Nat.add_zero]
    obtain ⟨j, rfl⟩ := Nat.exists_eq_add_of_le h.few
    have hmultiple : r * 2 ^ (5 + j) = 32 * (r * 2 ^ j) := by
      rw [Nat.pow_add]
      ring
    have hbelow := h.below
    have hbit : hiddenBit = 32 * 140737488355328 := rfl
    rw [hsignificand, hmultiple, hbit] at hbelow ⊢
    omega
  · exact .inl rfl

/-- Of the tenths `r` is near enough. -/
theorem NearTenth.gridHit_eq (tie : TieBreak) :
    gridHit tie x.significand x.lowerQuarters (x.significand * 10) (2 ^ k) = some r := by
  have hunit := h.unit_le
  have hbelow := h.below
  have habove := h.above
  have heven := h.even_of_half
  have hquarters := h.quarters
  have hm : 0 < x.significand := Nat.lt_of_lt_of_le (by decide) h.full
  generalize x.significand = m at *
  generalize x.lowerQuarters = low at *
  -- a distance in units of the number of tenths
  have hwithin {d : ℕ} (hclose : d ≤ 5) (hhalf : d = 5 → m % 2 = 0) :
      reaches m d (2 * (m * 10)) = true := by
    rcases Nat.lt_or_eq_of_le hclose with hless | rfl
    · refine reaches_of_lt ?_
      have : 4 * m * d ≤ 4 * m * 4 := Nat.mul_le_mul_left _ (Nat.le_of_lt_succ hless)
      omega
    · exact reaches_of_even (hhalf rfl) (by omega)
  have hfar {d q : ℕ} (hdistance : 6 ≤ d) (hmost : q ≤ 2) : reaches m d (q * (m * 10)) = false := by
    refine not_reaches ?_
    calc q * (m * 10) ≤ 2 * (m * 10) := Nat.mul_le_mul_right _ hmost
      _ < 4 * m * 6 := by omega
      _ ≤ 4 * m * d := Nat.mul_le_mul_left _ hdistance
  have hlow : low ≤ 2 := by omega
  have hnext : (r + 1) * 2 ^ k = r * 2 ^ k + 2 ^ k := by rw [Nat.add_mul, Nat.one_mul]
  rcases Nat.lt_or_ge (m * 10) (r * 2 ^ k) with hless | hmore
  · -- the tenth lies above the number
    obtain ⟨n, rfl⟩ : ∃ n, r = n + 1 := by
      refine Nat.exists_eq_succ_of_ne_zero fun hzero => ?_
      rw [hzero, Nat.zero_mul] at hless
      omega
    have hcut : (n + 1) * 2 ^ k = n * 2 ^ k + 2 ^ k := by rw [Nat.add_mul, Nat.one_mul]
    have hfloor : m * 10 / 2 ^ k = n := by
      refine Nat.div_eq_of_lt_le ?_ ?_
      · omega
      · exact hless
    refine (gridHit_next tie ?_ ?_).trans (congrArg (some <| · + 1) hfloor)
    · rw [hfloor]
      exact hfar (by omega) hlow
    · rw [hfloor]
      exact hwithin (by omega) (by omega)
  · have hfloor : m * 10 / 2 ^ k = r := by
      refine Nat.div_eq_of_lt_le hmore ?_
      omega
    refine (gridHit_floor tie ?_ ?_).trans (congrArg some hfloor)
    · rw [hfloor]
      rcases hquarters with rfl | ⟨rfl, hexact⟩
      · exact hwithin (by omega) (by omega)
      · have hnothing : m * 10 - r * 2 ^ k = 0 := by omega
        rw [hnothing]
        exact reaches_of_lt (by omega)
    · rw [hfloor]
      exact hfar (by omega) (Nat.le_refl 2)

/-- The search goes past the grids of one and more and ends on the tenths. -/
theorem NearTenth.searchGrids_eq (hr : ¬ 10 ∣ r) (tie : TieBreak) {grids power : ℕ}
    (hgrids : power < grids) : searchGrids tie x grids ((power : ℤ) - 1) = ⟨r, -1⟩ := by
  have hup : x.exponent.toNat = 0 := by
    rw [h.exponent_eq]
    exact Int.toNat_of_nonpos (by omega)
  have hdown : (-x.exponent).toNat = k := by
    rw [h.exponent_eq, Int.neg_neg, Int.toNat_natCast]
  induction power generalizing grids with
  | zero =>
    obtain ⟨more, rfl⟩ := Nat.exists_eq_add_of_lt hgrids
    have hhit := h.gridHit_eq tie
    simp only [searchGrids, Nat.cast_zero, Int.zero_sub, hup, hdown, Nat.shiftLeft_zero,
      Nat.one_shiftLeft, Int.neg_neg, Nat.pow_eq, Int.toNat_one, Nat.pow_one, Int.reduceNeg,
      Int.reduceToNat, Nat.pow_zero, Nat.mul_one, hhit]
  | succ power ih =>
    obtain ⟨more, rfl⟩ := Nat.exists_eq_add_of_lt hgrids
    have hcoarse : ¬ 2 ^ k * 10 ^ power ∣ x.significand := fun hdivides =>
      h.not_dvd hr (Nat.dvd_trans (Nat.dvd_mul_right ..) hdivides)
    have hquarters : x.lowerQuarters ≤ 2 := by
      unfold lowerQuarters
      split <;> decide
    have hmiss := gridHit_coarse tie (Nat.lt_of_lt_of_le (by decide) h.full) hquarters
      (by positivity) hcoarse
    have hnegative : (-(power : ℤ)).toNat = 0 := Int.toNat_of_nonpos (by omega)
    rw [Nat.cast_succ, Int.add_sub_cancel]
    simp only [searchGrids, hup, hdown, hnegative, Nat.shiftLeft_zero, Nat.one_shiftLeft,
      Int.toNat_natCast, Nat.pow_eq, Nat.pow_zero, Nat.mul_one, hmiss]
    exact ih (by omega)

theorem NearTenth.coarsestPower_eq :
    ∃ power : ℕ, power < 21 ∧ x.coarsestPower = (power : ℤ) - 1 := by
  have hlog : x.significand.log2 = 52 :=
    (Nat.log2_eq_iff (Nat.ne_of_gt (Nat.lt_of_lt_of_le (by decide) h.full))).mpr
      ⟨h.full, x.significand_lt⟩
  have hfew := h.few
  have hmany := h.many
  have hbounds : -1 ≤ x.coarsestPower ∧ x.coarsestPower < 20 := by
    unfold coarsestPower
    rw [h.exponent_eq, hlog, Int.fdiv_eq_ediv_of_nonneg _ (by decide)]
    omega
  exact ⟨(x.coarsestPower + 1).toNat, by omega, by omega⟩

theorem NearTenth.shortest_eq (hr : ¬ 10 ∣ r) (tie : TieBreak) : shortest tie x = ⟨r, -1⟩ := by
  have hzero : x.isZero ≠ true := by
    intro hzero
    have hnothing := (isZero_iff x).mp hzero
    rw [distance, mul_eq_zero, Nat.cast_eq_zero, or_iff_left (by positivity)] at hnothing
    exact absurd (hnothing ▸ h.full) (by decide)
  obtain ⟨power, hpower, hcoarsest⟩ := h.coarsestPower_eq
  rw [shortest, if_neg hzero, hcoarsest]
  exact h.searchGrids_eq hr tie hpower

end

/-! ### The text -/

/-- The last digit of a number stands behind those of its tenth, which are none below ten. -/
theorem digitsOf_split (r : ℕ) :
    r < 10 ∧ digitsOf r = [(r % 10).digitChar] ∨
      10 ≤ r ∧ digitsOf r = digitsOf (r / 10) ++ [(r % 10).digitChar] := by
  rcases Nat.lt_or_ge r 10 with hsmall | hlarge
  · left
    rw [digitsOf, Nat.toDigits_of_lt_base hsmall, Nat.mod_eq_of_lt hsmall]
    exact ⟨hsmall, rfl⟩
  · exact .inr ⟨hlarge, Nat.toDigits_of_base_le (by decide) hlarge⟩

theorem positional_tenth (wholeMark : String) (r : ℕ) :
    Decimal.positional wholeMark ⟨r, -1⟩ = digitsOf (r / 10) ++ ['.', (r % 10).digitChar] := by
  have hbelow : ¬ (0 : ℤ) ≤ -1 := by decide
  have hplaces : (- -1 : ℤ).toNat = 1 := rfl
  rw [Decimal.positional]
  simp only [hbelow, if_false, hplaces]
  rcases digitsOf_split r with ⟨hsmall, hdigits⟩ | ⟨-, hdigits⟩
  · rw [hdigits, Nat.div_eq_of_lt hsmall]
    rfl
  · have hsome : 0 < (digitsOf (r / 10)).length := Nat.length_toDigits_pos
    rw [hdigits, List.length_append, List.length_singleton, if_pos (by omega),
      Nat.add_sub_cancel, List.take_left, List.drop_left]

theorem jsonText_tenth {r : ℕ} (hr : ¬ 10 ∣ r) (hsmall : r < 10 ^ 15) :
    (tenth r).jsonText.toList = digitsOf (r / 10) ++ ['.', (r % 10).digitChar] := by
  have hpos : 0 < r := Nat.pos_of_ne_zero fun hzero => hr (hzero ▸ Nat.dvd_zero 10)
  obtain ⟨k, hnear⟩ := tenth_nearTenth hpos hsmall
  obtain ⟨hsign, hparts⟩ := tenth_near hpos hsmall
  have hshortest := hnear.shortest_eq hr jsonStyle.tie
  have hsome : 0 < (digitsOf r).length := Nat.length_toDigits_pos
  have hlength : (digitsOf r).length ≤ 15 :=
    (Nat.length_toDigits_le_iff (by decide) (by decide)).mpr hsmall
  have hexponent : Decimal.scientificExponent ⟨r, -1⟩ = -1 + (digitsOf r).length - 1 := rfl
  have hpositional : jsonStyle.lowestPositional.all
        (fun low => decide (low ≤ Decimal.scientificExponent ⟨r, -1⟩)) = true ∧
      jsonStyle.highestPositional.all
        (fun high => decide (Decimal.scientificExponent ⟨r, -1⟩ ≤ high)) = true := by
    rw [hexponent]
    exact ⟨decide_eq_true (by omega), decide_eq_true (by omega)⟩
  rw [jsonText, if_pos hparts.finite, String.toList_ofList, finiteText, hshortest]
  simp only [hpositional, Bool.and_self, if_true, hsign, Bool.false_eq_true, if_false,
    positional_tenth]

end SourceAudit.Binary64
