/-
  SourceAudit/Directive.lean
  ==========================
  **Import, export and part statements.**

  A statement starts a line: a keyword, blanks, and a quoted URI.  In a script a
  clause may stand between keyword and URI, as in `import x from 'y'`; it is set off
  by blanks and holds no quote and no semicolon.  Keyword and URI need not stand on
  the same line.  Since neither blanks nor clause hold a quote, the URI begins at
  the first quote behind the keyword, so a statement at a given place can be read in
  only one way.
-/
import SourceAudit.Text.Blank
import SourceAudit.Text.Search
import SourceAudit.Path

namespace SourceAudit

/-- What a statement does with the file it names. -/
inductive DirectiveKind where
  | imports
  | exports
  | part
deriving DecidableEq, Repr

/-- A statement that names another file. -/
structure Directive where
  kind : DirectiveKind
  uri : String
  /-- Line of the URI, from 1. -/
  line : Nat
deriving DecidableEq, Repr

namespace Directive

/-- How statements are written. -/
inductive Dialect where
  | dart      -- three keywords, no clause, and a URI may hold a line feed
  | script    -- `import` and `export`, with an optional clause
deriving DecidableEq, Repr

def Dialect.keywords : Dialect → List (List Char × DirectiveKind)
  | .dart => [("import".toList, .imports), ("export".toList, .exports), ("part".toList, .part)]
  | .script => [("import".toList, .imports), ("export".toList, .exports)]

def isQuote (c : Char) : Bool := c = '\'' || c = '"'

/-- The text ends in `from` and blanks, and what stands before that is at least two
    characters long with a blank at either end. -/
def isClause (gap : List Char) : Bool :=
  match Text.afterStart? "morf".toList (gap.reverse.dropWhile Text.isBlank) with
  | none => false
  | some before =>
    (gap.getLast?.any Text.isBlank) && 2 ≤ before.length &&
      (before.head?.any Text.isBlank) && (before.getLast?.any Text.isBlank)

/-- What may stand between keyword and URI. -/
def Dialect.isGap (dialect : Dialect) (gap : List Char) : Bool :=
  (!gap.isEmpty && gap.all Text.isBlank) || (dialect = .script && isClause gap)

/-- The character ends a URI, or makes it none. -/
def Dialect.endsUri (dialect : Dialect) (c : Char) : Bool :=
  isQuote c || (dialect = .script && c = '\n')

/-- A statement read at the start of a line: its kind, the text up to its URI, and
    the URI. -/
structure Reading where
  kind : DirectiveKind
  before : List Char
  uri : List Char
deriving DecidableEq, Repr

/-- How many characters the statement has, closing quote included. -/
def Reading.length (r : Reading) : Nat := r.before.length + r.uri.length + 1

/-- The keyword the text starts with, and the text behind it. -/
def keyword? (dialect : Dialect) (s : List Char) :
    Option ((List Char × DirectiveKind) × List Char) :=
  dialect.keywords.findSome? fun k => (Text.afterStart? k.1 s).map fun rest => (k, rest)

def readStatement? (dialect : Dialect) (s : List Char) : Option Reading := do
  let indent := s.takeWhile Text.isBlank
  let ((word, kind), rest) ← keyword? dialect (s.dropWhile Text.isBlank)
  let gap := rest.takeWhile fun c => !isQuote c
  match rest.dropWhile fun c => !isQuote c with
  | [] => none
  | quote :: body =>
    let uri := body.takeWhile fun c => !dialect.endsUri c
    match body.dropWhile fun c => !dialect.endsUri c with
    | [] => none
    | close :: _ =>
      if dialect.isGap gap && !gap.contains ';' && !uri.isEmpty && isQuote close then
        some ⟨kind, indent ++ word ++ gap ++ [quote], uri⟩
      else none

/-- Reads statements from a place in the text: `skip` characters of a statement are
    still to be passed, `line` is the line of the place, and `fresh` says that a line
    starts here. -/
def scan (dialect : Dialect) : (skip line : Nat) → (fresh : Bool) → List Char → List Directive
  | _, _, _, [] => []
  | skip + 1, line, _, c :: rest =>
    scan dialect skip (if c = '\n' then line + 1 else line) (c = '\n') rest
  | 0, line, fresh, c :: rest =>
    let next := if c = '\n' then line + 1 else line
    match if fresh then readStatement? dialect (c :: rest) else none with
    | some r =>
      ⟨r.kind, String.ofList r.uri, line + r.before.count '\n'⟩ ::
        scan dialect (r.length - 1) next (c = '\n') rest
    | none => scan dialect 0 next (c = '\n') rest

def ofText (dialect : Dialect) (s : List Char) : List Directive :=
  scan dialect 0 1 true s

/-- The dialect of a file.  Only the exact extension `dart` counts. -/
def dialectOf (p : Path) : Dialect :=
  if p.extension? = some "dart" then .dart else .script

/-- The import and export statements of a file, in order. -/
def importsOf (p : Path) (s : List Char) : List Directive :=
  (ofText (dialectOf p) s).filter fun d => d.kind ≠ .part

end Directive

end SourceAudit
