/-
  SourceAudit/Json/Token.lean
  ===========================
  **The tokens of a JSON document.**

  A document is a sequence of brackets, commas, colons, literals, numbers and
  quoted texts, with blanks between them.  `tokens?` reads that sequence or fails.

  A number keeps its exact value while it is an integer of 64 bits.  Every other
  number is the binary64 product (or quotient) of its leading digits and a power
  of ten, each rounded once: this is the number the report format stands for, and
  one out of range is an error.
-/
import SourceAudit.Datum
import SourceAudit.Text.Hex

namespace SourceAudit.Json

inductive Token where
  | openList
  | closeList
  | openTable
  | closeTable
  | comma
  | colon
  | null
  | bool (value : Bool)
  | number (value : Number)
  | text (value : String)
deriving Repr

/-! ### Numbers -/

/-- The largest integer that a leading run of digits may reach. -/
def maxNatural : Nat := 0xFFFFFFFFFFFFFFFF

/-- Reads digits while their value stays in 64 bits: the value, how many digits
    were read, and how many were left over. -/
def leadingDigits : List Char → Nat → Nat × Nat × Nat
  | [], n => (n, 0, 0)
  | c :: rest, n =>
    let next := 10 * n + (c.toNat - '0'.toNat)
    if maxNatural < next then (n, 0, rest.length + 1)
    else
      let (value, read, left) := leadingDigits rest next
      (value, read + 1, left)

/-- `significand · 10 ^ power` as a table of powers of ten up to 308 gives it: the
    significand is rounded first, then multiplied or divided.  Nothing when the
    result is out of range. -/
def scaledByTen (significand : Nat) (power : Int) : Option Binary64 :=
  let f := Binary64.ofNat significand
  if 0 ≤ power then
    if f.isZero then some f
    else if 308 < power then none
    else
      let product := f.mul (Binary64.ofDecimal false 1 power)
      if product.isInfinite then none else some product
  else divideDown f (-power).toNat ((-power).toNat / 308)
where
  /-- Divides by `10 ^ 308` while more than that is left. -/
  divideDown (f : Binary64) (power : Nat) : Nat → Option Binary64
    | 0 => some (f.div (Binary64.ofDecimal false 1 power))
    | steps + 1 =>
      if power ≤ 308 then some (f.div (Binary64.ofDecimal false 1 power))
      else if f.isZero then some f
      else divideDown (f.div (Binary64.ofDecimal false 1 308)) (power - 308) steps

/-- An exponent beyond 32 bits settles the number by itself. -/
def hugeExponent (negative : Bool) (significand : Nat) (up : Bool) : Option Number :=
  if up && significand ≠ 0 then none else some (.real (Binary64.zero negative))

/-- The number of a literal: its sign, whole digits, fraction digits and exponent. -/
def literalNumber? (negative : Bool) (whole : List Char) (fraction : Option (List Char))
    (exponent : Option (Bool × List Char)) : Option Number :=
  let (integer, _, dropped) := leadingDigits whole 0
  match fraction, exponent, dropped with
  | none, none, 0 =>
    if !negative then some (.integer integer)
    else if integer = 0 || 0x8000000000000000 < integer then
      some (.real (Binary64.ofNat integer).negate)
    else some (.integer (-integer))
  | _, _, _ =>
    let (significand, read, _) := leadingDigits (fraction.getD []) integer
    let power : Int := (dropped : Int) - read
    let signed := fun (x : Binary64) => Number.real (if negative then x.negate else x)
    match exponent with
    | none => (scaledByTen significand power).map signed
    | some (down, digits) =>
      let e := Binary64.digitsValue digits
      if 0x80000000 ≤ e then hugeExponent negative significand (!down)
      else (scaledByTen significand (if down then power - e else power + e)).map signed

/-- The minus a number may begin with, and what follows it. -/
def splitMinus : List Char → Bool × List Char
  | '-' :: rest => (true, rest)
  | s => (false, s)

/-- Whole digits: at least one, and no zero in front of others. -/
def isWhole : List Char → Bool
  | [] => false
  | '0' :: _ :: _ => false
  | _ => true

/-- The digits behind a point, if there is a point. -/
def splitFraction? : List Char → Option (Option (List Char) × List Char)
  | '.' :: more =>
    let digits := more.takeWhile Char.isDigit
    if digits.isEmpty then none else some (some digits, more.dropWhile Char.isDigit)
  | rest => some (none, rest)

/-- The sign and the digits of an exponent, if there is one. -/
def splitExponent? : List Char → Option (Option (Bool × List Char) × List Char)
  | e :: more =>
    if e = 'e' || e = 'E' then
      let (down, more) := Binary64.splitSign more
      let digits := more.takeWhile Char.isDigit
      if digits.isEmpty then none
      else some (some (down, digits), more.dropWhile Char.isDigit)
    else some (none, e :: more)
  | [] => some (none, [])

def splitNumber? (s : List Char) : Option (Number × List Char) := do
  let (negative, body) := splitMinus s
  let whole := body.takeWhile Char.isDigit
  if isWhole whole then
    let (fraction, rest) ← splitFraction? (body.dropWhile Char.isDigit)
    let (exponent, rest) ← splitExponent? rest
    let value ← literalNumber? negative whole fraction exponent
    return (value, rest)
  else none

/-! ### Quoted texts -/

def shortEscape? : Char → Option Char
  | '"' => some '"'
  | '\\' => some '\\'
  | '/' => some '/'
  | 'b' => some (Char.ofNat 8)
  | 'f' => some (Char.ofNat 12)
  | 'n' => some '\n'
  | 'r' => some '\r'
  | 't' => some '\t'
  | _ => none

/-- Reads the inside of a quoted text up to its closing quote: the characters and
    what follows.  A surrogate escape must be a complete pair. -/
def quotedBody? : List Char → Option (List Char × List Char)
  | [] => none
  | '"' :: rest => some ([], rest)
  | '\\' :: 'u' :: a :: b :: c :: d :: rest => do
    let unit ← Text.hex4? a b c d
    if 0xD800 ≤ unit && unit < 0xDC00 then
      match rest with
      | '\\' :: 'u' :: a' :: b' :: c' :: d' :: rest' => do
        let low ← Text.hex4? a' b' c' d'
        if 0xDC00 ≤ low && low < 0xE000 then
          let (body, tail) ← quotedBody? rest'
          return (Char.ofNat (0x10000 + (unit - 0xD800) * 0x400 + (low - 0xDC00)) :: body, tail)
        else none
      | _ => none
    else if 0xDC00 ≤ unit && unit < 0xE000 then none
    else
      let (body, tail) ← quotedBody? rest
      return (Char.ofNat unit :: body, tail)
  | '\\' :: c :: rest => do
    let escaped ← shortEscape? c
    let (body, tail) ← quotedBody? rest
    return (escaped :: body, tail)
  | c :: rest =>
    if c.toNat < 32 || c = '\\' then none
    else do
      let (body, tail) ← quotedBody? rest
      return (c :: body, tail)

/-! ### The sequence of tokens -/

def isGap (c : Char) : Bool :=
  c = ' ' || c = '\n' || c = '\t' || c = '\r'

def nextToken? : List Char → Option (Token × List Char)
  | '[' :: rest => some (.openList, rest)
  | ']' :: rest => some (.closeList, rest)
  | '{' :: rest => some (.openTable, rest)
  | '}' :: rest => some (.closeTable, rest)
  | ',' :: rest => some (.comma, rest)
  | ':' :: rest => some (.colon, rest)
  | 'n' :: 'u' :: 'l' :: 'l' :: rest => some (.null, rest)
  | 't' :: 'r' :: 'u' :: 'e' :: rest => some (.bool true, rest)
  | 'f' :: 'a' :: 'l' :: 's' :: 'e' :: rest => some (.bool false, rest)
  | '"' :: rest => do
    let (body, tail) ← quotedBody? rest
    return (.text (String.ofList body), tail)
  | s => do
    let (value, rest) ← splitNumber? s
    return (.number value, rest)

/-- The tokens of a text.  Every step takes at least one character, so as many
    steps as there are characters suffice. -/
def tokens? (s : List Char) : Option (List Token) :=
  go s.length s
where
  go : Nat → List Char → Option (List Token)
    | steps, s =>
      match s.dropWhile isGap, steps with
      | [], _ => some []
      | _ :: _, 0 => none
      | c :: rest, steps + 1 => do
        let (token, tail) ← nextToken? (c :: rest)
        return token :: (← go steps tail)

end SourceAudit.Json
