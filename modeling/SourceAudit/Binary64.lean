/-
  SourceAudit/Binary64.lean
  =========================
  **Binary64 numbers as rungs of a ladder.**

  Thresholds, metric values and magnitudes are IEEE 754 binary64 numbers.  The
  lower 63 bits of such a number, read as a natural number, count how many
  representable steps it lies above zero: rank 0 is zero, each further rank is the
  next representable number, then comes infinity, and every rank above infinity is
  a NaN.  A number here is its sign together with that rank.  Comparing numbers is
  therefore comparing integers, for the ordinary order (`atLeast`, where a NaN is
  comparable to nothing and the two zeros are equal) as well as for the total
  order of the standard (`totalRank`).
-/

namespace SourceAudit

/-- A binary64 number: its sign bit and its distance from zero in representable steps. -/
structure Binary64 where
  negative : Bool
  rank : Nat
  rank_lt : rank < 0x8000000000000000
deriving DecidableEq, Repr

namespace Binary64

/-- The rank of infinity: the first one with no finite number behind it. -/
def infinityRank : Nat := 0x7FF0000000000000

/-- The bit above the 52 that a significand stores, which normal numbers have set. -/
def hiddenBit : Nat := 0x10000000000000

def zero (negative : Bool) : Binary64 := ⟨negative, 0, by decide⟩

def infinity (negative : Bool) : Binary64 := ⟨negative, infinityRank, by decide⟩

/-- The quiet NaN without payload, with its sign. -/
def nan (negative : Bool) : Binary64 := ⟨negative, 0x7FF8000000000000, by decide⟩

instance : Inhabited Binary64 := ⟨zero false⟩

/-! ### Kinds of numbers -/

def isNaN (x : Binary64) : Bool := infinityRank < x.rank

def isInfinite (x : Binary64) : Bool := x.rank = infinityRank

def isFinite (x : Binary64) : Bool := x.rank < infinityRank

def isZero (x : Binary64) : Bool := x.rank = 0

/-- The integer `m` of a finite number written as `m · 2 ^ q`. -/
def significand (x : Binary64) : Nat :=
  if x.rank < hiddenBit then x.rank else hiddenBit + x.rank % hiddenBit

/-- The exponent `q` of a finite number written as `m · 2 ^ q`. -/
def exponent (x : Binary64) : Int :=
  (max (x.rank / hiddenBit) 1 : Nat) - 1075

def negate (x : Binary64) : Binary64 :=
  { x with negative := !x.negative }

/-! ### Order -/

/-- The place of a number on the line of all numbers; both zeros are at 0. -/
def ordinal (x : Binary64) : Int :=
  if x.negative then -(x.rank : Int) else x.rank

/-- `x ≥ y` as the standard compares: false as soon as one of them is a NaN. -/
def atLeast (x y : Binary64) : Bool :=
  !x.isNaN && !y.isNaN && decide (y.ordinal ≤ x.ordinal)

def isBelow (x y : Binary64) : Bool :=
  !x.isNaN && !y.isNaN && decide (x.ordinal < y.ordinal)

/-- The place of a number in the total order of the standard, where
    `-NaN < -∞ < -0 < +0 < +∞ < +NaN`. -/
def totalRank (x : Binary64) : Int :=
  if x.negative then -(x.rank : Int) - 1 else x.rank

/-- The distance from zero is below `2 ^ -52`, the gap between 1 and its successor. -/
def isNegligible (x : Binary64) : Bool :=
  x.rank < 971 * hiddenBit

end Binary64

end SourceAudit
