/-
  SourceAudit/LineCount.lean
  ==========================
  **Code, comment and blank lines.**

  Lines are counted one after the other.  A line counts as comment when it starts,
  behind its blanks, with a comment mark, or when a block comment is still open at
  its start; a comment behind code does not count.  Which marks there are depends
  on the extension of the file.  Besides the counts, one thing is carried from line
  to line: the mark that closes the block comment still open, if any.
-/
import SourceAudit.Text.Blank
import SourceAudit.Text.Lines
import SourceAudit.Text.Search

namespace SourceAudit

structure CommentMarks where
  /-- Marks after which the line is a comment. -/
  line : List (List Char)
  /-- Marks that open a comment, and those that close it. -/
  block : List (List Char × List Char)
deriving DecidableEq, Repr

namespace CommentMarks

def slashes : CommentMarks := ⟨["//".toList], [("/*".toList, "*/".toList)]⟩

/-- The marks of files with an extension, given in lower case. -/
def ofExtension : String → CommentMarks
  | "py" =>
    ⟨["#".toList], [(['"', '"', '"'], ['"', '"', '"']), (['\'', '\'', '\''], ['\'', '\'', '\''])]⟩
  | "php" => ⟨["//".toList, "#".toList], [("/*".toList, "*/".toList)]⟩
  | "svelte" => ⟨["//".toList], [("/*".toList, "*/".toList), ("<!--".toList, "-->".toList)]⟩
  | _ => slashes

/-- The marks of a file; without an extension those with slashes. -/
def ofExtension? (extension : Option String) : CommentMarks :=
  extension.elim slashes ofExtension

/-- The block comment that a line, without its blanks at the ends, opens: the text
    behind the opening mark and the closing mark. -/
def opened? (marks : CommentMarks) (trimmed : List Char) : Option (List Char × List Char) :=
  marks.block.findSome? fun mark =>
    (Text.afterStart? mark.1 trimmed).map fun rest => (rest, mark.2)

end CommentMarks

/-- The lines of a file by kind, and the length of the longest. -/
structure LineCount where
  code : Nat
  comment : Nat
  blank : Nat
  /-- Characters of the longest line. -/
  longest : Nat
deriving DecidableEq, Repr

namespace LineCount

def zero : LineCount := ⟨0, 0, 0, 0⟩

def addCode (c : LineCount) : LineCount := { c with code := c.code + 1 }

def addComment (c : LineCount) : LineCount := { c with comment := c.comment + 1 }

def addBlank (c : LineCount) : LineCount := { c with blank := c.blank + 1 }

/-- The longest line after one of some length. -/
def lengthen (c : LineCount) (length : Nat) : LineCount :=
  { c with longest := max c.longest length }

end LineCount

/-- Counting under way: the counts, and the mark that closes an open block comment. -/
structure LineTally where
  count : LineCount
  awaited : Option (List Char)
deriving DecidableEq, Repr

namespace LineTally

def start : LineTally := ⟨.zero, none⟩

/-- Counts one line more.  There are five ways through it. -/
def step (marks : CommentMarks) (s : LineTally) (line : List Char) : LineTally :=
  let count := s.count.lengthen line.length
  let trimmed := Text.trim line
  match s.awaited with
  | some close => ⟨count.addComment, if Text.contains close trimmed then none else some close⟩
  | none =>
    if trimmed.isEmpty then ⟨count.addBlank, none⟩
    else if marks.line.any (·.isPrefixOf trimmed) then ⟨count.addComment, none⟩
    else
      match marks.opened? trimmed with
      | some (rest, close) =>
        ⟨count.addComment, if Text.contains close rest then none else some close⟩
      | none => ⟨count.addCode, none⟩

def run (marks : CommentMarks) (s : LineTally) (lines : List (List Char)) : LineTally :=
  lines.foldl (step marks) s

end LineTally

def LineCount.ofText (extension : Option String) (text : List Char) : LineCount :=
  (LineTally.run (CommentMarks.ofExtension? extension) .start (Text.lines text)).count

end SourceAudit
