/-
  SourceAudit/Report/Layout.lean
  ==============================
  **Reports as text.**

  Three layouts, each a list of lines: `minimal` has one line of counts for each
  file, `normal` and `verbose` list the violations in sections, errors first.  All
  end with the same summary.  Headings and summary may be coloured by the most
  serious severity they speak of.
-/
import SourceAudit.Report
import SourceAudit.Binary64.Decimal

namespace SourceAudit

inductive Ink where
  | plain
  | coloured
deriving DecidableEq, Repr

namespace Ink

/-- A text between the code of a colour and the code that ends it. -/
def paint (ink : Ink) (colour text : String) : String :=
  match ink with
  | .plain => text
  | .coloured => s!"\x1b[{colour}m{text}\x1b[0m"

def red : String := "31"
def green : String := "32"
def yellow : String := "33"
def blue : String := "34"

end Ink

def Severity.colour : Severity → String
  | .error => Ink.red
  | .warning => Ink.yellow
  | .info => Ink.blue

def Severity.title : Severity → String
  | .error => "ERRORS"
  | .warning => "WARNINGS"
  | .info => "INFO"

namespace Report

def separator : String := String.ofList (List.replicate 80 '=')

def ofLines (lines : List String) : String := String.join (lines.map fun l => l ++ "\n")

def summary (r : Report) : String :=
  s!"Summary: {r.count .error} error(s), {r.count .warning} warning(s), " ++
    s!"{r.count .info} info(s) in {r.filesChecked} file(s)"

def colour (r : Report) : String :=
  if r.hasErrors then Ink.red else if r.hasWarnings then Ink.yellow else Ink.green

def nothingFound (ink : Ink) : String := ink.paint Ink.green "✓ No violations found!"

def evictedNote (r : Report) : List String :=
  if r.evicted = 0 then []
  else [s!"{r.evicted} lower-magnitude violation(s) dropped by --max-errors"]

/-! ### Counts by file -/

/-- Counts a violation with those of its file. -/
def tally (counts : List (String × SeverityCounts)) (v : Violation) :
    List (String × SeverityCounts) :=
  Entries.changeSorted v.file .zero (·.add v.severity) counts

def countsByFile (r : Report) : List (String × SeverityCounts) := r.violations.foldl tally []

/-- The counts of one file; infos only when there are any. -/
def fileLine (file : String) (c : SeverityCounts) : String :=
  s!"{file} errors:{c.errors} warnings:{c.warnings}" ++
    if 0 < c.infos then s!" infos:{c.infos}" else ""

def minimalLines (r : Report) : List String :=
  r.countsByFile.map (fun e => fileLine e.1 e.2) ++ [r.summary]

/-! ### Sections by severity -/

def shortEntry (v : Violation) : List String := [s!"  {v.file}", s!"    {v.message}", ""]

def fullEntry (v : Violation) : List String :=
  [s!"  {v.file}", s!"    Rule: {v.rule}", s!"    Severity: {v.severity.label}"] ++
    (v.magnitude.elim [] fun x => [s!"    Magnitude: {x.plainText}"]) ++
    [s!"    Message: {v.message}", ""]

def severitySection (r : Report) (ink : Ink) (entry : Violation → List String)
    (severity : Severity) : List String :=
  match r.ofSeverity severity with
  | [] => []
  | group =>
    [ink.paint severity.colour s!"{severity.title} ({group.length}):", separator] ++
      group.flatMap entry

def sections (r : Report) (ink : Ink) (entry : Violation → List String) : List String :=
  Severity.all.flatMap (r.severitySection ink entry) ++ [separator]

def closing (r : Report) (ink : Ink) : List String :=
  ink.paint r.colour r.summary :: r.evictedNote

def normalLines (r : Report) (ink : Ink) : List String :=
  if r.violations.isEmpty then [nothingFound ink]
  else r.sections ink shortEntry ++ r.closing ink

def verboseLines (r : Report) (ink : Ink) : List String :=
  [s!"Analyzing {r.filesChecked} file(s)...", ""] ++
    if r.violations.isEmpty then [nothingFound ink]
    else
      r.sections ink fullEntry ++
        [s!"Files analyzed: {r.filesChecked}", s!"Files with violations: {r.files.length}"] ++
        r.closing ink

/-! ### Texts -/

def minimal (r : Report) : String := ofLines r.minimalLines

def normal (r : Report) (ink : Ink) : String := ofLines (r.normalLines ink)

def verbose (r : Report) (ink : Ink) : String := ofLines (r.verboseLines ink)

end Report

end SourceAudit
