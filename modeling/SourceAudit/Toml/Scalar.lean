/-
  SourceAudit/Toml/Scalar.lean
  ============================
  **Numbers, truth values and dates of a TOML document.**

  A scalar without quotes is one word, apart from a blank that may stand between a
  date and a time.  The word decides by its form alone what it is.  Integers have 64
  bits; a real number too large for the format is refused, one too small below is
  not.  A date is kept as a table with one entry, its text in normal form.
-/
import SourceAudit.Datum
import SourceAudit.Text.Search
import SourceAudit.Text.Hex

namespace SourceAudit.Toml

/-! ### Digits -/

/-- Digits with single underscores between them, the underscores taken out. -/
def groupedDigits? (isDigit : Char → Bool) (s : List Char) : Option (List Char) :=
  let groups := Text.segments '_' s
  if groups.all fun g => !g.isEmpty && g.all isDigit then some groups.flatten else none

/-- The digits of a whole number, which starts with `0` only when it is `0`. -/
def wholeDigits? (s : List Char) : Option (List Char) :=
  match s with
  | '0' :: _ :: _ => none
  | _ => groupedDigits? Char.isDigit s

def fitting? (i : Int) : Option Datum :=
  if -0x8000000000000000 ≤ i && i < 0x8000000000000000 then some (.number (.integer i)) else none

def inBase? (base : Nat) (s : List Char) : Option Datum := do
  let isDigit := fun c => (Text.hexValue? c).any (· < base)
  let digits ← groupedDigits? isDigit s
  fitting? (digits.foldl (fun n c => base * n + (Text.hexValue? c).getD 0) 0 : Nat)

def integer? (s : List Char) : Option Datum :=
  match s with
  | '0' :: 'x' :: rest => inBase? 16 rest
  | '0' :: 'o' :: rest => inBase? 8 rest
  | '0' :: 'b' :: rest => inBase? 2 rest
  | _ => do
    let (negative, body) := Binary64.splitSign s
    let n : Int := Binary64.digitsValue (← wholeDigits? body)
    fitting? (if negative then -n else n)

/-! ### Real numbers -/

def exponent? (s : List Char) : Option (List Char) :=
  match s with
  | [] => some []
  | e :: rest =>
    if e = 'e' || e = 'E' then
      let (negative, digits) := Binary64.splitSign rest
      (groupedDigits? Char.isDigit digits).map fun d => 'e' :: (if negative then '-' else '+') :: d
    else none

def finite? (s : List Char) : Option Binary64 := do
  let (negative, body) := Binary64.splitSign s
  let inRun := fun c : Char => c.isDigit || c = '_'
  let whole ← wholeDigits? (body.takeWhile inRun)
  let sign := if negative then ['-'] else []
  match body.dropWhile inRun with
  | '.' :: rest =>
    let fraction ← groupedDigits? Char.isDigit (rest.takeWhile inRun)
    let exponent ← exponent? (rest.dropWhile inRun)
    Binary64.ofText? (sign ++ whole ++ '.' :: fraction ++ exponent)
  | rest => Binary64.ofText? (sign ++ whole ++ (← exponent? rest))

def real? (s : List Char) : Option Datum :=
  let (negative, body) := Binary64.splitSign s
  if body = "inf".toList then some (.number (.real (Binary64.infinity negative)))
  else if body = "nan".toList then some (.number (.real (Binary64.nan negative)))
  else do
    let x ← finite? s
    if x.isInfinite && !x.negative then none else some (.number (.real x))

/-! ### Dates and times -/

/-- The value of exactly `n` digits at the start, and the rest. -/
def digits? (n : Nat) (s : List Char) : Option (Nat × List Char) :=
  let run := s.take n
  if run.length = n && run.all Char.isDigit then some (Binary64.digitsValue run, s.drop n)
  else none

def twoDigits? (low high : Nat) (s : List Char) : Option (Nat × List Char) := do
  let (n, rest) ← digits? 2 s
  if low ≤ n && n ≤ high then some (n, rest) else none

def daysIn (year month : Nat) : Nat :=
  if month = 2 then
    if year % 4 = 0 && (year % 100 ≠ 0 || year % 400 = 0) then 29 else 28
  else if [4, 6, 9, 11].contains month then 30
  else 31

def date? (s : List Char) : Option (List Char × List Char) := do
  let (year, rest) ← digits? 4 s
  let rest ← Text.afterStart? ['-'] rest
  let (month, rest) ← twoDigits? 1 12 rest
  let rest ← Text.afterStart? ['-'] rest
  let (_, rest) ← twoDigits? 1 (daysIn year month) rest
  return (s.take 10, rest)

/-- The fraction of a second in normal form: at most nine digits, no zeros at the end. -/
def secondFraction (digits : List Char) : List Char :=
  match ((digits.take 9).reverse.dropWhile (· = '0')).reverse with
  | [] => []
  | kept => '.' :: kept

def time? (s : List Char) : Option (List Char × List Char) := do
  let (_, rest) ← twoDigits? 0 23 s
  let rest ← Text.afterStart? [':'] rest
  let (_, rest) ← twoDigits? 0 59 rest
  let rest ← Text.afterStart? [':'] rest
  let (_, rest) ← twoDigits? 0 60 rest
  match rest with
  | '.' :: more =>
    let digits := more.takeWhile Char.isDigit
    if digits.isEmpty then none
    else return (s.take 8 ++ secondFraction digits, more.dropWhile Char.isDigit)
  | _ => return (s.take 8, rest)

/-- The offset of a time, which ends the text; the zero offset has a plus. -/
def offset? (s : List Char) : Option (List Char) :=
  match s with
  | [] => some []
  | ['Z'] => some ['Z']
  | ['z'] => some ['Z']
  | sign :: rest =>
    if sign = '+' || sign = '-' then do
      let (hours, more) ← twoDigits? 0 23 rest
      let more ← Text.afterStart? [':'] more
      let (minutes, more) ← twoDigits? 0 59 more
      if !more.isEmpty then none
      else some ((if hours + minutes = 0 then '+' else sign) :: rest)
    else none

/-- A date, a time, or a date and a time with or without an offset, in normal form. -/
def moment? (s : List Char) : Option (List Char) :=
  match date? s with
  | some (date, []) => some date
  | some (date, mark :: rest) =>
    if mark = 'T' || mark = 't' || mark = ' ' then do
      let (time, rest) ← time? rest
      let offset ← offset? rest
      return date ++ 'T' :: time ++ offset
    else none
  | none =>
    match time? s with
    | some (time, []) => some time
    | _ => none

/-- The key under which a date stands. -/
def momentKey : String := "$__toml_private_datetime"

def momentDatum (text : List Char) : Datum :=
  .table [(momentKey, .text (String.ofList text))]

/-! ### Words -/

def inWord (c : Char) : Bool :=
  c.isAlphanum || c = '_' || c = '+' || c = '-' || c = '.' || c = ':'

def word? (s : List Char) : Option Datum :=
  if s = "true".toList then some (.bool true)
  else if s = "false".toList then some (.bool false)
  else (integer? s).or ((real? s).or ((moment? s).map momentDatum))

/-- Splits a scalar without quotes off a text.  A blank between a date and a digit
    belongs to it. -/
def splitWord (s : List Char) : List Char × List Char :=
  let word := s.takeWhile inWord
  let rest := s.dropWhile inWord
  match date? word, rest with
  | some (_, []), ' ' :: more =>
    if more.head?.any Char.isDigit then
      (word ++ ' ' :: more.takeWhile inWord, more.dropWhile inWord)
    else (word, rest)
  | _, _ => (word, rest)

end SourceAudit.Toml
