/-
  SourceAudit/Text/Blank.lean
  ===========================
  **Blank characters and trimming.**

  A blank is a character with the Unicode property White_Space.  Trimming a line,
  the gaps inside an import statement and the ends of an ignore rule all use this
  one class, so it is given once, as the table of the standard.
-/

namespace SourceAudit.Text

/-- First and last code point of every run of blank characters. -/
def blankRanges : List (Nat × Nat) :=
  [(0x09, 0x0D), (0x20, 0x20), (0x85, 0x85), (0xA0, 0xA0), (0x1680, 0x1680),
   (0x2000, 0x200A), (0x2028, 0x2029), (0x202F, 0x202F), (0x205F, 0x205F),
   (0x3000, 0x3000)]

/-- `c` has the property White_Space. -/
def isBlank (c : Char) : Bool :=
  blankRanges.any fun range => range.1 ≤ c.toNat && c.toNat ≤ range.2

def trimStart (s : List Char) : List Char :=
  s.dropWhile isBlank

def trimEnd (s : List Char) : List Char :=
  (s.reverse.dropWhile isBlank).reverse

def trim (s : List Char) : List Char :=
  trimEnd (trimStart s)

end SourceAudit.Text
