/-
  SourceAudit/Json/Printer.lean
  =============================
  **JSON text of a document value.**

  Two layouts: `compact` on one line without any space, and `pretty` with two
  spaces per level, where an empty list or table stays `[]` or `{}`.  A text is
  written between quotes; the quote, the backslash and the control characters are
  escaped, everything else stands for itself.
-/
import SourceAudit.Datum
import SourceAudit.Text.Hex

namespace SourceAudit.Json

def escapeChar (c : Char) : List Char :=
  if c = '"' then ['\\', '"']
  else if c = '\\' then ['\\', '\\']
  else if c = '\n' then ['\\', 'n']
  else if c = '\r' then ['\\', 'r']
  else if c = '\t' then ['\\', 't']
  else if c = Char.ofNat 8 then ['\\', 'b']
  else if c = Char.ofNat 12 then ['\\', 'f']
  else if c.toNat < 32 then
    ['\\', 'u', '0', '0', Text.hexDigit (c.toNat / 16), Text.hexDigit (c.toNat % 16)]
  else [c]

def quote (s : String) : List Char :=
  '"' :: s.toList.flatMap escapeChar ++ ['"']

def numberText : Number → String
  | .integer i => toString i
  | .real x => x.jsonText

mutual

def compactChars : Datum → List Char
  | .null => "null".toList
  | .bool b => if b then "true".toList else "false".toList
  | .number n => (numberText n).toList
  | .text s => quote s
  | .list items => '[' :: compactItems items ++ [']']
  | .table entries => '{' :: compactEntries entries ++ ['}']

def compactItems : List Datum → List Char
  | [] => []
  | [d] => compactChars d
  | d :: rest => compactChars d ++ ',' :: compactItems rest

def compactEntries : List (String × Datum) → List Char
  | [] => []
  | [(key, d)] => quote key ++ ':' :: compactChars d
  | (key, d) :: rest => quote key ++ ':' :: compactChars d ++ ',' :: compactEntries rest

end

def compact (d : Datum) : String := String.ofList (compactChars d)

/-- A line break followed by the indentation of a level. -/
def newline (level : Nat) : List Char := '\n' :: List.replicate (2 * level) ' '

mutual

/-- Nested items on lines of their own, two spaces per level. -/
def prettyChars (level : Nat) : Datum → List Char
  | .null => "null".toList
  | .bool b => if b then "true".toList else "false".toList
  | .number n => (numberText n).toList
  | .text s => quote s
  | .list [] => ['[', ']']
  | .list (d :: items) =>
    '[' :: newline (level + 1) ++ prettyItems (level + 1) (d :: items) ++ newline level ++ [']']
  | .table [] => ['{', '}']
  | .table (entry :: entries) =>
    '{' :: newline (level + 1) ++ prettyEntries (level + 1) (entry :: entries) ++
      newline level ++ ['}']

def prettyItems (level : Nat) : List Datum → List Char
  | [] => []
  | [d] => prettyChars level d
  | d :: rest => prettyChars level d ++ ',' :: newline level ++ prettyItems level rest

def prettyEntries (level : Nat) : List (String × Datum) → List Char
  | [] => []
  | [(key, d)] => quote key ++ ':' :: ' ' :: prettyChars level d
  | (key, d) :: rest =>
    quote key ++ ':' :: ' ' :: prettyChars level d ++ ',' :: newline level ++
      prettyEntries level rest

end

def pretty (d : Datum) : String := String.ofList (prettyChars 0 d)

end SourceAudit.Json
