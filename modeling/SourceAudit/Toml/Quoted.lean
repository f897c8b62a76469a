/-
  SourceAudit/Toml/Quoted.lean
  ============================
  **Quoted texts of a TOML document.**

  There are four kinds: between double quotes with escapes, between single quotes
  as they stand, and both over several lines between three quotes.  In the latter a
  line end directly behind the opening quotes does not count, every line end is a
  line feed, and up to two quotes may stand before the closing three.
-/
import SourceAudit.Text.Hex

namespace SourceAudit.Toml

def isSpace (c : Char) : Bool := c = ' ' || c = '\t'

/-- A character that may stand for itself in a line of a text or comment. -/
def isInLine (c : Char) : Bool := c = '\t' || (0x20 ≤ c.toNat && c.toNat ≠ 0x7F)

def shortEscape? : Char → Option Char
  | '"' => some '"'
  | '\\' => some '\\'
  | 'b' => some (Char.ofNat 8)
  | 't' => some '\t'
  | 'n' => some '\n'
  | 'f' => some (Char.ofNat 12)
  | 'r' => some '\r'
  | _ => none

def codePoint? (digits : List Char) : Option Char :=
  (Text.hexRun? digits).bind Text.scalar?

/-- A text and what follows it. -/
abbrev Cut := Option (List Char × List Char)

def before (c : Option Char) (cut : Cut) : Cut := do
  let c ← c
  let (body, rest) ← cut
  return (c :: body, rest)

def basicBody? : List Char → Cut
  | [] => none
  | '"' :: rest => some ([], rest)
  | '\\' :: 'u' :: a :: b :: c :: d :: rest => before (codePoint? [a, b, c, d]) (basicBody? rest)
  | '\\' :: 'U' :: a :: b :: c :: d :: e :: f :: g :: h :: rest =>
    before (codePoint? [a, b, c, d, e, f, g, h]) (basicBody? rest)
  | '\\' :: c :: rest => before (shortEscape? c) (basicBody? rest)
  | c :: rest => if isInLine c && c ≠ '\\' then before (some c) (basicBody? rest) else none

def literalBody? : List Char → Cut
  | [] => none
  | '\'' :: rest => some ([], rest)
  | c :: rest => if isInLine c then before (some c) (literalBody? rest) else none

/-- Takes up to two quotes that stand before the end of a text over several lines. -/
def lastQuotes (quote : Char) : List Char → List Char × List Char
  | a :: b :: rest =>
    if a = quote && b = quote then ([a, b], rest)
    else if a = quote then ([a], b :: rest)
    else ([], a :: b :: rest)
  | [a] => if a = quote then ([a], []) else ([], [a])
  | [] => ([], [])

def endsLine (s : List Char) : Bool :=
  match s.dropWhile isSpace with
  | '\n' :: _ => true
  | '\r' :: '\n' :: _ => true
  | _ => false

/-- Reads up to the closing three double quotes.  `skipping` holds behind a backslash
    at the end of a line: blanks and line ends do not count then. -/
def basicLines? : (skipping : Bool) → List Char → Cut
  | _, [] => none
  | _, '"' :: '"' :: '"' :: rest => some (lastQuotes '"' rest)
  | _, '\\' :: 'u' :: a :: b :: c :: d :: rest =>
    before (codePoint? [a, b, c, d]) (basicLines? false rest)
  | _, '\\' :: 'U' :: a :: b :: c :: d :: e :: f :: g :: h :: rest =>
    before (codePoint? [a, b, c, d, e, f, g, h]) (basicLines? false rest)
  | _, '\\' :: c :: rest =>
    if endsLine (c :: rest) then basicLines? true rest
    else before (shortEscape? c) (basicLines? false rest)
  | skipping, c :: rest =>
    if skipping && (isSpace c || c = '\n') then basicLines? true rest
    else if c = '\r' then
      if rest.head? = some '\n' then basicLines? skipping rest else none
    else if c = '\n' || (isInLine c && c ≠ '\\') then before (some c) (basicLines? false rest)
    else none

def literalLines? : List Char → Cut
  | [] => none
  | '\'' :: '\'' :: '\'' :: rest => some (lastQuotes '\'' rest)
  | c :: rest =>
    if c = '\r' then if rest.head? = some '\n' then literalLines? rest else none
    else if c = '\n' || isInLine c then before (some c) (literalLines? rest)
    else none

/-- Passes a line end directly behind the opening quotes. -/
def dropLineEnd : List Char → List Char
  | '\n' :: rest => rest
  | '\r' :: '\n' :: rest => rest
  | s => s

def line? : List Char → Cut
  | '"' :: rest => basicBody? rest
  | '\'' :: rest => literalBody? rest
  | _ => none

def quoted? : List Char → Cut
  | '"' :: '"' :: '"' :: rest => basicLines? false (dropLineEnd rest)
  | '\'' :: '\'' :: '\'' :: rest => literalLines? (dropLineEnd rest)
  | s => line? s

end SourceAudit.Toml
