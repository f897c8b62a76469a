/-
  SourceAudit/Binary64/Decimal.lean
  =================================
  **Writing and reading binary64 numbers.**

  A number is written with the fewest digits that read back.  What differs between
  the places it is written in is only the style: `plain`, used in messages and
  in the text and CSV reports, and `json`, used inside JSON documents.  Reading
  (`ofText?`) accepts the decimal literals with an optional fraction and exponent
  and rounds the exact value once.
-/
import SourceAudit.Binary64.Rounding
import SourceAudit.Binary64.Shortest

namespace SourceAudit.Binary64

/-- How a finite number is laid out around its shortest digits. -/
structure Style where
  tie : TieBreak
  /-- Scientific exponents from here on are written positionally. -/
  lowestPositional : Option Int
  /-- Scientific exponents up to here are written positionally. -/
  highestPositional : Option Int
  /-- Written after a positional number without a fraction. -/
  wholeMark : String

/-- Positional at every size, and a whole number has no fraction. -/
def plainStyle : Style := ⟨.upward, none, none, ""⟩

/-- Positional for the exponents -5 to 15, and a whole number ends in `.0`. -/
def jsonStyle : Style := ⟨.even, some (-5), some 15, ".0"⟩

def digitsOf (n : Nat) : List Char := Nat.toDigits 10 n

/-- The exponent of the first digit. -/
def Decimal.scientificExponent (d : Decimal) : Int :=
  d.power + (digitsOf d.digits).length - 1

/-- Digits with the point at its place. -/
def Decimal.positional (wholeMark : String) (d : Decimal) : List Char :=
  let digits := digitsOf d.digits
  if 0 ≤ d.power then
    digits ++ List.replicate d.power.toNat '0' ++ wholeMark.toList
  else
    let places := (-d.power).toNat
    if places < digits.length then
      let whole := digits.length - places
      digits.take whole ++ '.' :: digits.drop whole
    else
      '0' :: '.' :: List.replicate (places - digits.length) '0' ++ digits

/-- One digit, the rest after a point, and the exponent with its sign. -/
def Decimal.scientific (d : Decimal) : List Char :=
  let exponent := d.scientificExponent
  let mark := if exponent < 0 then ['e', '-'] else ['e', '+']
  let fraction := match digitsOf d.digits with
    | first :: second :: rest => first :: '.' :: second :: rest
    | short => short
  fraction ++ mark ++ digitsOf exponent.natAbs

def finiteText (style : Style) (x : Binary64) : List Char :=
  let d := shortest style.tie x
  let exponent := d.scientificExponent
  let positional :=
    style.lowestPositional.all (· ≤ exponent) &&
      style.highestPositional.all (exponent ≤ ·)
  let body := if positional then d.positional style.wholeMark else d.scientific
  if x.negative then '-' :: body else body

/-- The number as messages and reports show it: `300`, `0.1`, `-0`, `inf`, `NaN`. -/
def plainText (x : Binary64) : String :=
  if x.isNaN then "NaN"
  else if x.isInfinite then if x.negative then "-inf" else "inf"
  else String.ofList (finiteText plainStyle x)

/-- The number inside a JSON document, where only finite numbers exist. -/
def jsonText (x : Binary64) : String :=
  if x.isFinite then String.ofList (finiteText jsonStyle x) else "null"

/-! ### Reading -/

def digitsValue (digits : List Char) : Nat :=
  digits.foldl (fun n c => 10 * n + (c.toNat - '0'.toNat)) 0

/-- An optional sign and what follows it; `true` for a minus. -/
def splitSign : List Char → Bool × List Char
  | '-' :: rest => (true, rest)
  | '+' :: rest => (false, rest)
  | s => (false, s)

/-- An exponent part: nothing, or `e` with an optional sign and digits. -/
def exponentPart? : List Char → Option Int
  | [] => some 0
  | c :: rest =>
    if c = 'e' || c = 'E' then
      let (negative, digits) := splitSign rest
      if digits.isEmpty || !digits.all Char.isDigit then none
      else some (if negative then -(digitsValue digits : Int) else digitsValue digits)
    else none

/-- Reads a decimal literal with at least one digit before or after the point. -/
def ofText? (s : List Char) : Option Binary64 :=
  let (negative, body) := splitSign s
  let whole := body.takeWhile Char.isDigit
  let afterWhole := body.dropWhile Char.isDigit
  let (fraction, afterFraction) := match afterWhole with
    | '.' :: rest => (rest.takeWhile Char.isDigit, rest.dropWhile Char.isDigit)
    | rest => ([], rest)
  if whole.isEmpty && fraction.isEmpty then none
  else do
    let exponent ← exponentPart? afterFraction
    return ofDecimal negative (digitsValue (whole ++ fraction)) (exponent - fraction.length)

end SourceAudit.Binary64
