/-
  SourceAudit/Proofs/Json/Numbers.lean
  ====================================
  **Numbers with one decimal place are read back.**

  An integer of 64 bits is read from its digits (`readsBack_integer`).  A whole binary64
  number is written with `.0` behind its digits; reading takes the zero into the digits and
  divides by ten, which gives the number again (`readsBack_real`).  So it does with any one
  digit behind the point, when the number was divided by ten before (`readsBack_tenth`).
-/
import SourceAudit.Proofs.Binary64.Tenths
import SourceAudit.Proofs.Binary64.WholeText
import SourceAudit.Proofs.Json.Printing

namespace SourceAudit.Json

/-! ### Digits -/

theorem le_ofDigitChars (s : List Char) (n : ℕ) : n ≤ Nat.ofDigitChars 10 s n := by
  induction s generalizing n with
  | nil => exact Nat.le_refl n
  | cons c s ih =>
    rw [Nat.ofDigitChars_cons]
    refine Nat.le_trans ?_ (ih _)
    omega

/-- Digits whose value stays in 64 bits are all read. -/
theorem leadingDigits_eq {s : List Char} {n : ℕ} (h : Nat.ofDigitChars 10 s n ≤ maxNatural) :
    leadingDigits s n = (Nat.ofDigitChars 10 s n, s.length, 0) := by
  induction s generalizing n with
  | nil => rfl
  | cons c s ih =>
    rw [Nat.ofDigitChars_cons] at h
    have hnext := Nat.le_trans (le_ofDigitChars s _) h
    rw [leadingDigits, if_neg (Nat.not_lt.mpr hnext), ih h]
    rfl

theorem digits_of_wholeDigits {d k : ℕ} {c : Char} (hc : c ∈ Binary64.wholeDigits d k) :
    c.isDigit = true := by
  rcases List.mem_append.mp hc with hc | hc
  · exact Nat.isDigit_of_mem_toDigits (by decide) (by decide) hc
  · rw [List.eq_of_mem_replicate hc]
    rfl

theorem value_wholeDigits (d k : ℕ) :
    Nat.ofDigitChars 10 (Binary64.wholeDigits d k) 0 = d * 10 ^ k := by
  rw [Binary64.wholeDigits, Nat.ofDigitChars_append, Nat.ofDigitChars_replicate_zero,
    Binary64.digitsOf, Nat.ofDigitChars_ten_toDigits, Nat.mul_comm]

theorem leadingDigits_wholeDigits {d k : ℕ} (h : d * 10 ^ k ≤ maxNatural) :
    leadingDigits (Binary64.wholeDigits d k) 0 =
      (d * 10 ^ k, (Binary64.wholeDigits d k).length, 0) := by
  rw [← value_wholeDigits] at h
  rw [leadingDigits_eq h, value_wholeDigits]

/-- The first digit of a positive number is not zero. -/
theorem head?_toDigits {n : ℕ} (hn : 0 < n) : (Nat.toDigits 10 n).head? ≠ some '0' := by
  induction n using Nat.strongRecOn with
  | ind n ih =>
    rcases Nat.lt_or_ge n 10 with hsmall | hlarge
    · rw [Nat.toDigits_of_lt_base hsmall]
      intro h
      have := Nat.digitChar_eq_zero.mp (Option.some.inj h)
      omega
    · rw [Nat.toDigits_of_base_le (by decide) hlarge,
        List.head?_append_of_ne_nil _ Nat.toDigits_ne_nil]
      exact ih (n / 10) (by omega) (by omega)

theorem isWhole_wholeDigits {d k : ℕ} (hzero : d = 0 → k = 0) :
    isWhole (Binary64.wholeDigits d k) = true := by
  rcases Nat.eq_zero_or_pos d with rfl | hd
  · rw [hzero rfl]
    rfl
  · have hhead : (Binary64.wholeDigits d k).head? ≠ some '0' := by
      rw [Binary64.wholeDigits, Binary64.digitsOf,
        List.head?_append_of_ne_nil _ Nat.toDigits_ne_nil]
      exact head?_toDigits hd
    have hne : Binary64.wholeDigits d k ≠ [] := by
      simp [Binary64.wholeDigits, Binary64.digitsOf, Nat.toDigits_ne_nil]
    unfold isWhole
    split
    · next h => exact absurd h hne
    · next h => exact absurd (congrArg List.head? h) hhead
    · rfl

/-! ### Texts of numbers -/

theorem splitMinus_digits (negative : Bool) {whole tail : List Char}
    (hdigits : ∀ c ∈ whole, c.isDigit = true) (hwhole : isWhole whole = true) :
    splitMinus ((if negative then ['-'] else []) ++ whole ++ tail) = (negative, whole ++ tail) := by
  cases negative with
  | true => rfl
  | false =>
    cases whole with
    | nil => cases hwhole
    | cons c whole =>
      have hminus : c ≠ '-' := by
        rintro rfl
        exact absurd (hdigits '-' List.mem_cons_self) (by decide)
      simp [splitMinus, hminus]

/-- The minus and the whole digits of a number, with what may follow them. -/
theorem splitNumber?_digits {negative : Bool} {whole tail : List Char}
    (hdigits : ∀ c ∈ whole, c.isDigit = true) (hwhole : isWhole whole = true)
    (htail : ∀ c ∈ tail.head?, c.isDigit = false) :
    splitNumber? ((if negative then ['-'] else []) ++ whole ++ tail) = do
      let (fraction, rest) ← splitFraction? tail
      let (exponent, rest) ← splitExponent? rest
      let value ← literalNumber? negative whole fraction exponent
      return (value, rest) := by
  have htake : (whole ++ tail).takeWhile Char.isDigit = whole := by
    rw [List.takeWhile_append_of_pos hdigits]
    cases tail with
    | nil => simp
    | cons c tail => simp [htail c rfl]
  have hdrop : (whole ++ tail).dropWhile Char.isDigit = tail := by
    rw [List.dropWhile_append_of_pos hdigits]
    cases tail with
    | nil => rfl
    | cons c tail => simp [htail c rfl]
  simp only [splitNumber?, splitMinus_digits negative hdigits hwhole, htake, hdrop, hwhole, if_true]

theorem readsBack_integer {n : ℕ} (hn : n ≤ maxNatural) : ReadsBack (.integer n) := by
  have htext : (numberText (.integer n)).toList =
      (if false then ['-'] else []) ++ Binary64.wholeDigits n 0 ++ [] := by
    refine (Nat.toList_repr : n.repr.toList = _).trans ?_
    simp [Binary64.wholeDigits, Binary64.digitsOf]
  have hvalue := leadingDigits_wholeDigits (d := n) (k := 0) (by simpa using hn)
  rw [ReadsBack, htext, splitNumber?_digits (fun _ => digits_of_wholeDigits)
    (isWhole_wholeDigits fun _ => rfl) (by simp)]
  simp [splitFraction?, splitExponent?, literalNumber?, hvalue]

theorem readsBack_real {x : Binary64} (hfinite : x.isFinite = true) {n : ℕ}
    (hn : x.distance = n) (hsmall : n < 10 ^ 14) : ReadsBack (.real x) := by
  obtain ⟨d, k, hdigits, hzero, htext⟩ :=
    Binary64.jsonText_whole hfinite hn (Nat.lt_trans hsmall (by decide))
  have hrange : 10 * n ≤ maxNatural :=
    Nat.le_of_lt (Nat.lt_trans (by omega) (show 10 ^ 15 < maxNatural by decide))
  have hwhole := leadingDigits_wholeDigits (d := d) (k := k) (by omega)
  have htenth : leadingDigits ['0'] n = (10 * n, 1, 0) :=
    leadingDigits_eq (by simpa [Nat.ofDigitChars] using hrange)
  have hscaled : scaledByTen (10 * n) (-1) = some { x with negative := false } :=
    congrArg some (Binary64.tenth_eq (x := { x with negative := false }) hfinite hn hsmall rfl)
  have hliteral : literalNumber? x.negative (Binary64.wholeDigits d k) (some ['0']) none =
      some (.real x) := by
    rw [hdigits] at hwhole
    simp only [literalNumber?, hwhole, Option.getD_some, htenth]
    refine (congrArg (Option.map _) hscaled).trans ?_
    obtain ⟨negative, rank, hrank⟩ := x
    cases negative <;> rfl
  rw [ReadsBack, numberText, htext, splitNumber?_digits (fun _ => digits_of_wholeDigits)
    (isWhole_wholeDigits hzero) (by simp)]
  simp [splitFraction?, splitExponent?, hliteral]

/-- A last digit behind the others. -/
theorem ofDigitChars_last (r : ℕ) : Nat.ofDigitChars 10 [(r % 10).digitChar] (r / 10) = r := by
  have hall : Nat.ofDigitChars 10 (Binary64.digitsOf r) 0 = r := Nat.ofDigitChars_ten_toDigits
  rcases Binary64.digitsOf_split r with ⟨hsmall, hdigits⟩ | ⟨-, hdigits⟩
  · rw [hdigits] at hall
    rwa [Nat.div_eq_of_lt hsmall]
  · rwa [hdigits, Nat.ofDigitChars_append, Binary64.digitsOf, Nat.ofDigitChars_ten_toDigits]
      at hall

/-- A tenth is read back. -/
theorem readsBack_tenth {r : ℕ} (hsmall : r < 10 ^ 15) : ReadsBack (.real (Binary64.tenth r)) := by
  by_cases hr : 10 ∣ r
  · obtain ⟨n, rfl⟩ := hr
    obtain ⟨hfinite, hdistance⟩ :=
      Binary64.ofNat_isExact (n := n) (Nat.lt_trans (by omega) (show 10 ^ 14 < _ by decide))
    rw [Binary64.tenth_eq hfinite hdistance (by omega) (Binary64.negative_ofQuotient ..)]
    exact readsBack_real hfinite hdistance (by omega)
  · have hrange : r ≤ maxNatural :=
      Nat.le_of_lt (Nat.lt_trans hsmall (show 10 ^ 15 < maxNatural by decide))
    have hwhole := leadingDigits_wholeDigits (d := r / 10) (k := 0) (by omega)
    rw [Nat.pow_zero, Nat.mul_one] at hwhole
    have hlast : leadingDigits [(r % 10).digitChar] (r / 10) = (r, 1, 0) := by
      have hdigits := leadingDigits_eq (s := [(r % 10).digitChar]) (n := r / 10)
        (by rwa [ofDigitChars_last])
      rwa [ofDigitChars_last] at hdigits
    have hliteral : literalNumber? false (Binary64.wholeDigits (r / 10) 0)
        (some [(r % 10).digitChar]) none = some (.real (Binary64.tenth r)) := by
      simp only [literalNumber?, hwhole, Option.getD_some, hlast]
      rfl
    have hdigit : (r % 10).digitChar.isDigit = true :=
      Nat.isDigit_digitChar.trans (decide_eq_true (Nat.mod_lt r (show 0 < 10 by decide)))
    have htext : (numberText (.real (Binary64.tenth r))).toList =
        (if false then ['-'] else []) ++ Binary64.wholeDigits (r / 10) 0 ++
          ['.', (r % 10).digitChar] := by
      rw [numberText, Binary64.jsonText_tenth hr hsmall, Binary64.wholeDigits]
      simp
    rw [ReadsBack, htext, splitNumber?_digits (fun _ => digits_of_wholeDigits)
      (isWhole_wholeDigits fun _ => rfl) (by simp)]
    simp [splitFraction?, splitExponent?, hliteral, hdigit]

end SourceAudit.Json
