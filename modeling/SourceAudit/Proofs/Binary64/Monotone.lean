/-
  SourceAudit/Proofs/Binary64/Monotone.lean
  =========================================
  **Rounding keeps the order.**

  Of two quotients, the greater one is not rounded to the lower rank (`ofQuotient_mono`): with
  one exponent the nearest integers stand in the order of the quotients
  (`nearestEven_mono`), and with a greater exponent the full significand outweighs
  any significand before (`quotientRank_mono`).  So counts may be compared as numbers
  (`atLeast_ofNat`).
-/
import SourceAudit.Proofs.Binary64.Nearest

namespace SourceAudit.Binary64

/-- The nearest integers of two quotients stand in the order of the quotients. -/
theorem nearestEven_mono {num den num' den' : ℕ} (hden : 0 < den) (hden' : 0 < den')
    (hle : (num : ℚ) / den ≤ num' / den') : nearestEven num den ≤ nearestEven num' den' := by
  obtain ⟨hclose, heven⟩ := nearestEven_near num hden
  obtain ⟨hclose', heven'⟩ := nearestEven_near num' hden'
  obtain ⟨-, habove⟩ := abs_le.mp hclose
  obtain ⟨hbelow', -⟩ := abs_le.mp hclose'
  by_contra hless
  have hnext : nearestEven num' den' + 1 ≤ nearestEven num den := Nat.lt_of_not_le hless
  have hnext' : (nearestEven num' den' : ℚ) + 1 ≤ nearestEven num den := mod_cast hnext
  -- the quotients could only be one tie, which goes to the even integer for both
  have hhalf : |(nearestEven num den : ℚ) - num / den| = 1 / 2 := by
    rw [abs_of_nonneg (by linarith)]
    linarith
  have hhalf' : |(nearestEven num' den' : ℚ) - num' / den'| = 1 / 2 := by
    rw [abs_of_nonpos (by linarith)]
    linarith
  have hsame : (nearestEven num den : ℚ) = (nearestEven num' den' + 1 : ℕ) := by
    push_cast
    linarith
  have hsucc : nearestEven num den = nearestEven num' den' + 1 := mod_cast hsame
  have hfirst := heven hhalf
  have hsecond := heven' hhalf'
  omega

theorem binaryExponent_mono {num den num' den' : ℕ} (hnum : 0 < num) (hden : 0 < den)
    (hden' : 0 < den') (hle : (num : ℚ) / den ≤ num' / den') :
    0 < num' ∧ binaryExponent num den ≤ binaryExponent num' den' := by
  have hpos : (0 : ℚ) < num / den := by positivity
  have hnum' : 0 < num' := by
    refine Nat.pos_of_ne_zero ?_
    rintro rfl
    rw [Nat.cast_zero, zero_div] at hle
    exact absurd hpos (not_lt.mpr hle)
  obtain ⟨hlow, -⟩ := binaryExponent_spec hnum hden
  obtain ⟨-, hhigh⟩ := binaryExponent_spec hnum' hden'
  have hless := (zpow_lt_zpow_iff_right₀ (one_lt_two (α := ℚ))).mp
    (hlow.trans_lt (hle.trans_lt hhigh))
  exact ⟨hnum', by omega⟩

/-- In gaps of any size down to the smallest, a significand has at most 53 bits, and all of them
    when the gap is no larger than it has to be. -/
theorem significand_bounds {num den : ℕ} (hnum : 0 < num) (hden : 0 < den) {q : ℤ}
    (hq : binaryExponent num den - 52 ≤ q) :
    nearestEven (num <<< (-q).toNat) (den <<< q.toNat) ≤ 2 * hiddenBit ∧
      (q = binaryExponent num den - 52 →
        hiddenBit ≤ nearestEven (num <<< (-q).toNat) (den <<< q.toNat)) := by
  have hpos : 0 < den <<< q.toNat := by
    rw [Nat.shiftLeft_eq]
    positivity
  obtain ⟨hclose, -⟩ := nearestEven_near (num <<< (-q).toNat) hpos
  rw [shifted_div] at hclose
  obtain ⟨hfull, hsmall⟩ := quotient_in_gaps hnum hden
  have hquotient : (0 : ℚ) < num / den := by positivity
  have hgap : (2 : ℚ) ^ (-q) ≤ 2 ^ (-(binaryExponent num den - 52)) :=
    zpow_le_zpow_right₀ one_le_two (by omega)
  have hless : (num : ℚ) / den * 2 ^ (-q) < (2 * hiddenBit : ℕ) :=
    (mul_le_mul_of_nonneg_left hgap hquotient.le).trans_lt hsmall
  constructor
  · have hleast : ((0 : ℕ) : ℚ) ≤ num / den * 2 ^ (-q) := by
      rw [Nat.cast_zero]
      positivity
    exact (le_of_close hclose hleast hless).2
  · rintro rfl
    exact (le_of_close hclose hfull hless).1

theorem quotientRank_mono {num den num' den' : ℕ} (hnum : 0 < num) (hden : 0 < den)
    (hden' : 0 < den') (hle : (num : ℚ) / den ≤ num' / den') :
    quotientRank num den ≤ quotientRank num' den' := by
  obtain ⟨hnum', hexponents⟩ := binaryExponent_mono hnum hden hden' hle
  rw [quotientRank, quotientRank]
  obtain ⟨q, hq⟩ : ∃ q, q = max (binaryExponent num den - 52) (-1074) := ⟨_, rfl⟩
  obtain ⟨q', hq'⟩ : ∃ q', q' = max (binaryExponent num' den' - 52) (-1074) := ⟨_, rfl⟩
  rw [← hq, ← hq']
  rcases Int.lt_or_eq_of_le (show q ≤ q' by omega) with hless | rfl
  · have hgap : binaryExponent num den - 52 ≤ q := by omega
    have hgap' : binaryExponent num' den' - 52 ≤ q' := by omega
    obtain ⟨hmost, -⟩ := significand_bounds hnum hden hgap
    have hfull := (significand_bounds hnum' hden' hgap').2 (by omega)
    have hsteps : ((q + 1074).toNat + 1) * hiddenBit ≤ (q' + 1074).toNat * hiddenBit :=
      Nat.mul_le_mul_right _ (by omega)
    rw [Nat.add_mul, Nat.one_mul] at hsteps
    omega
  · have hgap {d : ℕ} (hd : 0 < d) : 0 < d <<< q.toNat := by
      rw [Nat.shiftLeft_eq]
      positivity
    refine Nat.add_le_add_left (nearestEven_mono (hgap hden) (hgap hden') ?_) _
    rw [shifted_div, shifted_div]
    gcongr

/-- A greater quotient is not rounded to a lower rank. -/
theorem ofQuotient_mono (negative negative' : Bool) {num den num' den' : ℕ} (hden : 0 < den)
    (hden' : 0 < den') (hle : (num : ℚ) / den ≤ num' / den') :
    (ofQuotient negative num den).rank ≤ (ofQuotient negative' num' den').rank := by
  rcases Nat.eq_zero_or_pos num with rfl | hnum
  · exact Nat.zero_le _
  · have hnum' := (binaryExponent_mono hnum hden hden' hle).1
    have hrank := quotientRank_mono hnum hden hden' hle
    rw [ofQuotient, ofQuotient, if_neg hnum.ne', if_neg hnum'.ne']
    exact Nat.le_min.mpr ⟨(Nat.min_le_left ..).trans hrank, Nat.min_le_right ..⟩

theorem isNaN_ofQuotient (negative : Bool) (num den : ℕ) :
    (ofQuotient negative num den).isNaN = false := by
  rw [ofQuotient, isNaN, decide_eq_false_iff_not, Nat.not_lt]
  split
  · exact Nat.zero_le _
  · exact Nat.min_le_right ..

/-- Of two counts the greater one is not below the other as a number either. -/
theorem atLeast_ofNat {m n : ℕ} (hle : m ≤ n) : (ofNat n).atLeast (ofNat m) = true := by
  have hquotient : (m : ℚ) / (1 : ℕ) ≤ n / (1 : ℕ) := by
    rw [Nat.cast_one, div_one, div_one]
    exact_mod_cast hle
  have hrank := ofQuotient_mono false false Nat.one_pos Nat.one_pos hquotient
  have hordinal (k : ℕ) : (ofNat k).ordinal = (ofQuotient false k 1).rank := by
    rw [ordinal, ofNat, negative_ofQuotient, if_neg Bool.false_ne_true]
  rw [atLeast, hordinal, hordinal, ofNat, ofNat, isNaN_ofQuotient, isNaN_ofQuotient,
    decide_eq_true (Int.ofNat_le.mpr hrank)]
  rfl

theorem atLeast_trans {x y z : Binary64} (hxy : x.atLeast y = true) (hyz : y.atLeast z = true) :
    x.atLeast z = true := by
  simp only [atLeast, Bool.and_eq_true, Bool.not_eq_true', decide_eq_true_eq] at hxy hyz ⊢
  exact ⟨⟨hxy.1.1, hyz.1.2⟩, hyz.2.trans hxy.2⟩

end SourceAudit.Binary64
