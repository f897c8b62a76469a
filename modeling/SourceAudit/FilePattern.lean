/-
  SourceAudit/FilePattern.lean
  ============================
  **Patterns that select files.**

  An exception names the files it applies to by a pattern.  Backslashes in a
  pattern count as slashes.  A pattern selects a path in one of three ways: the
  path is the pattern, the pattern is a glob that matches it, or the pattern has no
  slash and is the last segment of the path.
-/
import SourceAudit.Glob

namespace SourceAudit

inductive PatternError where
  | empty
  | invalidGlob (pattern : String) (reason : Glob.SyntaxError)
deriving DecidableEq, Repr

def PatternError.message : PatternError → String
  | .empty => "file pattern must not be empty"
  | .invalidGlob pattern reason => s!"invalid glob pattern `{pattern}`: {reason.message}"

/-- A file pattern: its text with slashes, and its glob when it has a wildcard. -/
structure FilePattern where
  text : String
  glob : Option Glob
deriving DecidableEq, Repr

namespace FilePattern

/-- Reads a pattern.  A fault is reported with the pattern as it was given. -/
def read (pattern : String) : Except PatternError FilePattern :=
  if pattern.isEmpty then .error .empty
  else
    let text := String.ofList (Text.forwardSlashes pattern.toList)
    if Glob.hasWildcard text.toList then
      match Glob.read text with
      | .ok glob => .ok ⟨text, some glob⟩
      | .error reason => .error (.invalidGlob pattern reason)
    else .ok ⟨text, none⟩

def selects (pattern : FilePattern) (path : List Char) : Bool :=
  path = pattern.text.toList ||
    pattern.glob.any (·.matchesText .separate path) ||
    (!pattern.text.toList.contains '/' && Text.lastSegment '/' path = pattern.text.toList)

/-- Reads a pattern and applies it; a pattern that cannot be read selects nothing. -/
def selectsText (pattern : String) (path : List Char) : Bool :=
  match read pattern with
  | .ok p => p.selects path
  | .error _ => false

end FilePattern

end SourceAudit
