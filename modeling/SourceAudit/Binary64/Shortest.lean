/-
  SourceAudit/Binary64/Shortest.lean
  ==================================
  **The fewest digits that read back.**

  A finite number `v = m · 2 ^ q` is the nearest binary64 number to every real in
  an interval around `v`.  On the grid of the multiples of `10 ^ k` only the two
  neighbours of `v` need to be tested: if any multiple lies in the interval, one
  of them does.  Going from coarse grids to fine ones, the first grid with a hit
  gives the fewest digits, and of two hits the nearer one is taken.
-/
import SourceAudit.Binary64

namespace SourceAudit.Binary64

/-- A decimal number `digits · 10 ^ power`. -/
structure Decimal where
  digits : Nat
  power : Int
deriving DecidableEq, Repr

/-- What to do when both neighbours are equally near. -/
inductive TieBreak where
  | upward    -- the larger neighbour
  | even      -- the neighbour with the even last digit
deriving DecidableEq, Repr

/-- The reals between `v` and its predecessor that round to `v`, in quarters of the
    gap above `v`: the gap below a power of two is only half as wide. -/
def lowerQuarters (x : Binary64) : Nat :=
  if hiddenBit < x.rank && x.rank % hiddenBit = 0 then 1 else 2

/-- The neighbour of `a / b` among the integers that lies within reach, if any:
    below by at most `low`, above by at most two quarters of `a / (b · m)`. -/
def gridHit (tie : TieBreak) (m low a b : Nat) : Option Nat :=
  let c := a / b
  let below := a - c * b
  let above := (c + 1) * b - a
  let within := fun distance quarters =>
    if m % 2 = 0 then decide (4 * m * distance ≤ quarters * a)
    else decide (4 * m * distance < quarters * a)
  match within below low, within above 2 with
  | false, false => none
  | true, false => some c
  | false, true => some (c + 1)
  | true, true =>
    if below < above then some c
    else if above < below then some (c + 1)
    else match tie with
      | .upward => some (c + 1)
      | .even => some (c + c % 2)

/-- Tries the grids of `10 ^ power`, `10 ^ (power - 1)`, … in turn. -/
def searchGrids (tie : TieBreak) (x : Binary64) : Nat → Int → Decimal
  | 0, power => ⟨x.significand, power⟩
  | grids + 1, power =>
    let a := (x.significand <<< x.exponent.toNat) * Nat.pow 10 (-power).toNat
    let b := (1 <<< (-x.exponent).toNat) * Nat.pow 10 power.toNat
    match gridHit tie x.significand x.lowerQuarters a b with
    | some digits => ⟨digits, power⟩
    | none => searchGrids tie x grids (power - 1)

/-- A power of ten above the finite number `x`, by at most two factors of ten. -/
def coarsestPower (x : Binary64) : Int :=
  Int.fdiv (((x.significand.log2 : Int) + x.exponent + 1) * 30103) 100000 + 1

/-- The decimal of fewest digits that is read back as the finite number `x`
    without its sign.  Seventeen digits always suffice. -/
def shortest (tie : TieBreak) (x : Binary64) : Decimal :=
  if x.isZero then ⟨0, 0⟩ else searchGrids tie x 21 x.coarsestPower

end SourceAudit.Binary64
