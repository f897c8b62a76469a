/-
  SourceAudit/Binary64/Rounding.lean
  ==================================
  **Arithmetic with one rounding.**

  Every operation computes the exact rational result and rounds it once, to the
  nearest binary64 number, a tie going to the even significand.  `ofQuotient` is
  that rounding for a quotient of natural numbers; the rest (integers, decimals,
  products, quotients) only name the exact result.
-/
import SourceAudit.Binary64

namespace SourceAudit.Binary64

/-- The integer nearest to `num / den`, a tie going to the even one. -/
def nearestEven (num den : Nat) : Nat :=
  let q := num / den
  let r := num % den
  if 2 * r < den then q
  else if den < 2 * r then q + 1
  else q + q % 2

/-- The integer `e` with `2 ^ e ≤ num / den < 2 ^ (e + 1)`, for positive arguments. -/
def binaryExponent (num den : Nat) : Int :=
  let guess : Int := (num.log2 : Int) - den.log2
  if num <<< (-guess).toNat < den <<< guess.toNat then guess - 1 else guess

/-- The rank of the number nearest to the positive quotient `num / den`. -/
def quotientRank (num den : Nat) : Nat :=
  let q : Int := max (binaryExponent num den - 52) (-1074)
  let m := nearestEven (num <<< (-q).toNat) (den <<< q.toNat)
  (q + 1074).toNat * hiddenBit + m

/-- The number nearest to `num / den`, with the given sign; `den` is positive. -/
def ofQuotient (negative : Bool) (num den : Nat) : Binary64 :=
  if num = 0 then zero negative
  else
    ⟨negative, min (quotientRank num den) infinityRank,
      Nat.lt_of_le_of_lt (Nat.min_le_right _ _) (by decide)⟩

/-- The number nearest to `m · 2 ^ q`. -/
def ofScaled (negative : Bool) (m : Nat) (q : Int) : Binary64 :=
  ofQuotient negative (m <<< q.toNat) (1 <<< (-q).toNat)

def ofNat (n : Nat) : Binary64 :=
  ofQuotient false n 1

/-- The number nearest to an integer; the integer 0 is the positive zero. -/
def ofInt (i : Int) : Binary64 :=
  ofQuotient (i < 0) i.natAbs 1

/-- The number nearest to `digits · 10 ^ power`.  Powers far outside the range of
    the format are settled without being computed. -/
def ofDecimal (negative : Bool) (digits : Nat) (power : Int) : Binary64 :=
  if digits = 0 then zero negative
  else if 400 < power then infinity negative
  else if (digits.log2 : Int) + 3 * power < -1100 then zero negative
  else ofQuotient negative (digits * Nat.pow 10 power.toNat) (Nat.pow 10 (-power).toNat)

/-! ### Products and quotients -/

def mul (x y : Binary64) : Binary64 :=
  let negative := x.negative != y.negative
  if x.isNaN || y.isNaN then nan false
  else if x.isInfinite || y.isInfinite then
    if x.isZero || y.isZero then nan false else infinity negative
  else ofScaled negative (x.significand * y.significand) (x.exponent + y.exponent)

def div (x y : Binary64) : Binary64 :=
  let negative := x.negative != y.negative
  if x.isNaN || y.isNaN then nan false
  else if x.isInfinite then if y.isInfinite then nan false else infinity negative
  else if y.isInfinite then zero negative
  else if y.isZero then if x.isZero then nan false else infinity negative
  else
    let q := x.exponent - y.exponent
    ofQuotient negative (x.significand <<< q.toNat) (y.significand <<< (-q).toNat)

/-- The nearest integer, a half going away from zero. -/
def roundHalfAway (x : Binary64) : Binary64 :=
  if x.isFinite && x.exponent < 0 then
    let unit := 1 <<< (-x.exponent).toNat
    ofQuotient x.negative ((2 * x.significand + unit) / (2 * unit)) 1
  else x

end SourceAudit.Binary64
