/-
  SourceAudit/Yaml/Cursor.lean
  ============================
  **A place in a YAML text.**

  Indentation carries meaning in YAML, so a place in a text knows its line and its
  column besides what follows.  There are five line breaks; all but the two
  separators of Unicode count as a line feed.
-/

namespace SourceAudit.Yaml

def isBreak (c : Char) : Bool :=
  c = '\n' || c = '\r' || c.toNat = 0x85 || c.toNat = 0x2028 || c.toNat = 0x2029

def isSpace (c : Char) : Bool := c = ' ' || c = '\t'

/-- A character at which a word ends. -/
def isEdge (c : Char) : Bool := isSpace c || isBreak c

/-- A word ends where the text goes on like this. -/
def endsWord (s : List Char) : Bool := s.head?.all isEdge

def isNameChar (c : Char) : Bool := c.isAlphanum || c = '_' || c = '-'

def isAllowed (c : Char) : Bool :=
  let n := c.toNat
  n = 0x09 || n = 0x0A || n = 0x0D || (0x20 ≤ n && n ≤ 0x7E) || n = 0x85 ||
    (0xA0 ≤ n && n ≤ 0xD7FF) || (0xE000 ≤ n && n ≤ 0xFFFD && n ≠ 0xFEFF) || 0x10000 ≤ n

structure Cursor where
  rest : List Char
  /-- Characters before the place. -/
  index : Nat
  line : Nat
  column : Nat
deriving Repr

namespace Cursor

def start (s : List Char) : Cursor := ⟨s, 0, 0, 0⟩

def head? (c : Cursor) : Option Char := c.rest.head?

def isAt (c : Cursor) (x : Char) : Bool := c.head? = some x

/-- The place `n` characters further on the same line. -/
def skip (c : Cursor) (n : Nat) : Cursor :=
  ⟨c.rest.drop n, c.index + n, c.line, c.column + n⟩

/-- The next characters of a kind, and the place behind them; none is a line break. -/
def takeWhile (c : Cursor) (p : Char → Bool) : List Char × Cursor :=
  let run := c.rest.takeWhile p
  (run, c.skip run.length)

def skipWhile (c : Cursor) (p : Char → Bool) : Cursor := (c.takeWhile p).2

/-- The line break at the place, as it counts, and the place behind it. -/
def lineBreak? (c : Cursor) : Option (Char × Cursor) :=
  match c.rest with
  | '\r' :: '\n' :: rest => some ('\n', ⟨rest, c.index + 2, c.line + 1, 0⟩)
  | x :: rest =>
    if x.toNat = 0x2028 || x.toNat = 0x2029 then some (x, ⟨rest, c.index + 1, c.line + 1, 0⟩)
    else if isBreak x then some ('\n', ⟨rest, c.index + 1, c.line + 1, 0⟩)
    else none
  | [] => none

/-- The line starts with the given characters, and a word ends behind them. -/
def startsLineWith (c : Cursor) (mark : List Char) : Bool :=
  c.column = 0 && mark.isPrefixOf c.rest && endsWord (c.rest.drop mark.length)

def isDocumentMark (c : Cursor) : Bool :=
  c.startsLineWith ['-', '-', '-'] || c.startsLineWith ['.', '.', '.']

/-- The end of the line, behind blanks and a comment. -/
def skipComment (c : Cursor) : Cursor :=
  let c := c.skipWhile isSpace
  if c.isAt '#' then c.skipWhile fun x => !isBreak x else c

end Cursor

end SourceAudit.Yaml
