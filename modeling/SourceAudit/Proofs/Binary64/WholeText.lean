/-
  SourceAudit/Proofs/Binary64/WholeText.lean
  ==========================================
  **How whole numbers are written.**

  A whole number below `2 ^ 53` has gaps of at most one beside it, so no other whole number
  is as near as half a gap (`gridHit_whole`): the search for the fewest digits ends on the
  first power of ten that divides it (`shortest_whole`).  Inside JSON documents its text is
  therefore that of its digits with `.0` behind (`jsonText_whole`).
-/
import SourceAudit.Binary64.Decimal
import SourceAudit.Proofs.Binary64.Exact

namespace SourceAudit.Binary64

/-! ### The search for the fewest digits -/

/-- Of the multiples of `p` only the number itself is within half a gap. -/
theorem gridHit_whole (tie : TieBreak) {n u p low : ℕ} (hn : 0 < n) (hu : 0 < u) (hp : 0 < p)
    (hlow : 0 < low) (hlow' : low ≤ 2) :
    gridHit tie (n * u) low (n * u) (p * u) = if p ∣ n then some (n / p) else none := by
  have hm : 0 < n * u := Nat.mul_pos hn hu
  have hfloor : n * u / (p * u) = n / p := Nat.mul_div_mul_right n p hu
  have hbelow : n * u - n / p * (p * u) = n % p * u := by
    rw [← Nat.mul_assoc, ← Nat.sub_mul, Nat.mul_comm (n / p) p, ← Nat.mod_eq_sub_mul_div]
  have habove : (n / p + 1) * (p * u) - n * u = (p - n % p) * u := by
    rw [← Nat.mul_assoc, ← Nat.sub_mul]
    congr 1
    have := Nat.div_add_mod n p
    rw [Nat.add_mul, Nat.one_mul, Nat.mul_comm]
    omega
  -- a whole step is more than half a gap
  have hfar : ∀ steps quarters : ℕ, 0 < steps → quarters ≤ 2 →
      quarters * (n * u) < 4 * (n * u) * (steps * u) := by
    intro steps quarters hsteps hquarters
    have hone : 1 ≤ steps * u := Nat.mul_pos hsteps hu
    nlinarith
  have hafter : ∀ steps quarters : ℕ, 0 < steps → quarters ≤ 2 →
      (if n * u % 2 = 0 then decide (4 * (n * u) * (steps * u) ≤ quarters * (n * u))
        else decide (4 * (n * u) * (steps * u) < quarters * (n * u))) = false := by
    intro steps quarters hsteps hquarters
    have := hfar steps quarters hsteps hquarters
    split
    · exact decide_eq_false (by omega)
    · exact decide_eq_false (by omega)
  have hrest := Nat.mod_lt n hp
  simp only [gridHit, hfloor, hbelow, habove, hafter (p - n % p) 2 (by omega) (Nat.le_refl 2)]
  by_cases hdivides : p ∣ n
  · have hhere : (if n * u % 2 = 0 then decide (4 * (n * u) * (n % p * u) ≤ low * (n * u))
        else decide (4 * (n * u) * (n % p * u) < low * (n * u))) = true := by
      rw [Nat.mod_eq_zero_of_dvd hdivides, Nat.zero_mul, Nat.mul_zero]
      have := Nat.mul_pos hlow hm
      split
      · exact decide_eq_true (by omega)
      · exact decide_eq_true (by omega)
    rw [hhere, if_pos hdivides]
  · have hsteps : 0 < n % p := Nat.pos_of_ne_zero fun h => hdivides (Nat.dvd_of_mod_eq_zero h)
    rw [hafter (n % p) low hsteps hlow', if_neg hdivides]

/-- A whole number below `2 ^ 53` is a multiple of its gap. -/
theorem whole_parts {x : Binary64} {n : ℕ} (hn : x.distance = n) (hsmall : n < 2 * hiddenBit) :
    x.exponent ≤ 0 ∧ x.significand = n * 2 ^ (-x.exponent).toNat := by
  have hexponent : x.exponent ≤ 0 := by
    refine le_of_not_gt fun hpos => ?_
    have hfull := x.full_or_lowest.resolve_right (by omega)
    have hdistance : (2 * hiddenBit : ℕ) ≤ x.distance := by
      rw [Nat.cast_mul, mul_comm]
      have htwo : ((2 : ℕ) : ℚ) ≤ 2 ^ x.exponent := by
        simpa using zpow_le_zpow_right₀ (one_le_two (α := ℚ)) hpos
      have hfull' : (hiddenBit : ℚ) ≤ x.significand := Nat.cast_le.mpr hfull
      unfold distance
      gcongr
    rw [hn, Nat.cast_le] at hdistance
    omega
  obtain ⟨k, hk⟩ := Int.eq_ofNat_of_zero_le (Int.neg_nonneg.mpr hexponent)
  have hdown : x.exponent = -(k : ℤ) := by omega
  refine ⟨hexponent, ?_⟩
  rw [distance, hdown, zpow_neg, zpow_natCast, mul_inv_eq_iff_eq_mul₀ (by positivity)] at hn
  rw [hk, Int.toNat_natCast]
  exact_mod_cast hn

/-- One grid of the search. -/
theorem searchGrids_step (tie : TieBreak) {x : Binary64} {n : ℕ} (hn : x.distance = n)
    (hpos : 0 < n) (hsmall : n < 2 * hiddenBit) (grids power : ℕ) :
    searchGrids tie x (grids + 1) power =
      if 10 ^ power ∣ n then ⟨n / 10 ^ power, power⟩
      else searchGrids tie x grids ((power : ℤ) - 1) := by
  obtain ⟨hexponent, hsignificand⟩ := whole_parts hn hsmall
  have hquarters : 0 < x.lowerQuarters ∧ x.lowerQuarters ≤ 2 := by
    unfold lowerQuarters
    split <;> decide
  have hup : x.exponent.toNat = 0 := Int.toNat_of_nonpos hexponent
  have hdown : (-(power : ℤ)).toNat = 0 := Int.toNat_of_nonpos (by omega)
  have hhit := gridHit_whole tie hpos (Nat.two_pow_pos (-x.exponent).toNat)
    (Nat.pow_pos (n := power) (show 0 < 10 by decide)) hquarters.1 hquarters.2
  rw [← hsignificand, Nat.mul_comm (10 ^ power)] at hhit
  simp only [searchGrids, hup, hdown, Nat.shiftLeft_zero, Nat.one_shiftLeft, Int.toNat_natCast,
    Nat.pow_eq, Nat.pow_zero, Nat.mul_one, hhit]
  by_cases hdivides : 10 ^ power ∣ n
  · rw [if_pos hdivides, if_pos hdivides]
  · rw [if_neg hdivides, if_neg hdivides]

theorem searchGrids_whole (tie : TieBreak) {x : Binary64} {n : ℕ} (hn : x.distance = n)
    (hpos : 0 < n) (hsmall : n < 2 * hiddenBit) {grids power : ℕ} (hgrids : power < grids) :
    ∃ d k : ℕ, d * 10 ^ k = n ∧ searchGrids tie x grids power = ⟨d, k⟩ := by
  induction power generalizing grids with
  | zero =>
    obtain ⟨more, rfl⟩ := Nat.exists_eq_add_of_lt hgrids
    refine ⟨n, 0, Nat.mul_one n, ?_⟩
    rw [searchGrids_step tie hn hpos hsmall]
    simp
  | succ power ih =>
    obtain ⟨more, rfl⟩ := Nat.exists_eq_add_of_lt hgrids
    rw [searchGrids_step tie hn hpos hsmall]
    split
    · next hdivides => exact ⟨_, _, Nat.div_mul_cancel hdivides, rfl⟩
    · next hdivides =>
      rw [Nat.cast_succ, Int.add_sub_cancel]
      exact ih (by omega)

theorem coarsestPower_whole {x : Binary64} {n : ℕ} (hn : x.distance = n) (hpos : 0 < n)
    (hsmall : n < 2 * hiddenBit) : ∃ power : ℕ, power < 21 ∧ x.coarsestPower = power := by
  obtain ⟨hexponent, hsignificand⟩ := whole_parts hn hsmall
  have hlow : (-x.exponent).toNat ≤ x.significand.log2 := by
    rw [Nat.le_log2 (by rw [hsignificand]; positivity), hsignificand]
    exact Nat.le_mul_of_pos_left _ hpos
  have hhigh : x.significand.log2 < 53 :=
    (Nat.log2_lt (by rw [hsignificand]; positivity)).mpr x.significand_lt
  have hcoarsest : 1 ≤ x.coarsestPower ∧ x.coarsestPower < 21 := by
    unfold coarsestPower
    rw [Int.fdiv_eq_ediv_of_nonneg _ (by decide)]
    omega
  exact ⟨x.coarsestPower.toNat, by omega, by omega⟩

/-- The digits of a whole number are those of its quotient by a power of ten. -/
theorem shortest_whole (tie : TieBreak) {x : Binary64} {n : ℕ} (hn : x.distance = n)
    (hsmall : n < 2 * hiddenBit) :
    ∃ d k : ℕ, d * 10 ^ k = n ∧ (d = 0 → k = 0) ∧ shortest tie x = ⟨d, k⟩ := by
  unfold shortest
  split
  · next hzero =>
    rw [(isZero_iff x).mp hzero] at hn
    exact ⟨0, 0, by exact_mod_cast hn, fun _ => rfl, rfl⟩
  · next hzero =>
    have hpos : 0 < n := by
      refine Nat.pos_of_ne_zero fun h => hzero ((isZero_iff x).mpr ?_)
      rw [hn, h, Nat.cast_zero]
    obtain ⟨power, hpower, hcoarsest⟩ := coarsestPower_whole hn hpos hsmall
    obtain ⟨d, k, hdigits, hsearch⟩ := searchGrids_whole tie hn hpos hsmall hpower
    rw [hcoarsest, hsearch]
    refine ⟨d, k, hdigits, fun hd => ?_, rfl⟩
    rw [hd, Nat.zero_mul] at hdigits
    exact absurd hdigits (Nat.ne_of_lt hpos)

/-! ### The text -/

/-- The digits of a whole number as they stand in its text. -/
def wholeDigits (d k : ℕ) : List Char := digitsOf d ++ List.replicate k '0'

theorem jsonText_whole {x : Binary64} (hfinite : x.isFinite = true) {n : ℕ}
    (hn : x.distance = n) (hsmall : n < 10 ^ 15) :
    ∃ d k : ℕ, d * 10 ^ k = n ∧ (d = 0 → k = 0) ∧
      x.jsonText.toList =
        (if x.negative then ['-'] else []) ++ wholeDigits d k ++ ['.', '0'] := by
  obtain ⟨d, k, hdigits, hzero, hshortest⟩ :=
    shortest_whole jsonStyle.tie hn (hsmall.trans (by decide))
  refine ⟨d, k, hdigits, hzero, ?_⟩
  -- at most sixteen digits
  have hplaces : (digitsOf d).length + k ≤ 16 := by
    by_cases hd : d = 0
    · rw [hd, hzero hd]
      decide
    · have hk : k < 15 := by
        refine (Nat.pow_lt_pow_iff_right (show 1 < 10 by decide)).mp (lt_of_le_of_lt ?_ hsmall)
        rw [← hdigits]
        exact Nat.le_mul_of_pos_left _ (Nat.pos_of_ne_zero hd)
      have hlength : (digitsOf d).length ≤ 15 - k := by
        refine (Nat.length_toDigits_le_iff (by decide) (by omega)).mpr ?_
        refine Nat.lt_of_mul_lt_mul_right (a := 10 ^ k) ?_
        rwa [hdigits, ← Nat.pow_add, Nat.sub_add_cancel hk.le]
      omega
  have hsome : 0 < (digitsOf d).length := Nat.length_toDigits_pos
  have hexponent : Decimal.scientificExponent ⟨d, k⟩ = (k : ℤ) + (digitsOf d).length - 1 := rfl
  have hpositional : jsonStyle.lowestPositional.all
        (fun low => decide (low ≤ Decimal.scientificExponent ⟨d, k⟩)) = true ∧
      jsonStyle.highestPositional.all
        (fun high => decide (Decimal.scientificExponent ⟨d, k⟩ ≤ high)) = true := by
    rw [hexponent]
    exact ⟨decide_eq_true (by omega), decide_eq_true (by omega)⟩
  rw [jsonText, if_pos hfinite, String.toList_ofList, finiteText, hshortest]
  have hbody : Decimal.positional jsonStyle.wholeMark ⟨d, k⟩ = wholeDigits d k ++ ['.', '0'] := by
    simp [Decimal.positional, wholeDigits, jsonStyle]
  simp only [hpositional, Bool.and_self, if_true, hbody]
  cases x.negative <;> rfl

end SourceAudit.Binary64
