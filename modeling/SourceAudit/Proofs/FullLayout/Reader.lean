/-
  SourceAudit/Proofs/FullLayout/Reader.lean
  =========================================
  **A reader for the full layout.**

  The full layout opens with the number of files, lists the violations in sections and closes
  with counts.  What it tells is a digest: the violations in the order of their sections, field
  by field, and the numbers.  The reader takes the lines one after the other and knows what each
  must be by where it stands; only an entry may lack the line of its magnitude, and only a section or
  the last note may be missing, which the first word of a line tells.
-/
import SourceAudit.Report.Layout
import SourceAudit.Text.Search

namespace SourceAudit

def Severity.ofLabel? (label : String) : Option Severity :=
  Severity.all.find? fun severity => severity.label = label

namespace Report

/-- What the full layout tells of one violation; of its magnitude, the text. -/
structure Entry where
  file : String
  rule : String
  severity : Severity
  magnitude : Option String
  message : String
deriving DecidableEq, Repr

def Entry.ofViolation (v : Violation) : Entry :=
  ⟨v.file, v.rule, v.severity, v.magnitude.map Binary64.plainText, v.message⟩

structure Digest where
  filesChecked : Nat
  entries : List Entry
  filesWithViolations : Nat
  errors : Nat
  warnings : Nat
  infos : Nat
  evicted : Nat
deriving DecidableEq, Repr

/-- The first is at least as severe as the second. -/
def asSevere (v w : Violation) : Bool := w.severity.rank ≤ v.severity.rank

/-- The violations sorted by descending severity, equally severe ones in their order. -/
def bySeverity (r : Report) : List Violation := r.violations.mergeSort asSevere

def digest (r : Report) : Digest where
  filesChecked := r.filesChecked
  entries := r.bySeverity.map Entry.ofViolation
  filesWithViolations := r.files.length
  errors := r.count .error
  warnings := r.count .warning
  infos := r.count .info
  evicted := r.evicted

/-! ### Lines -/

abbrev Line := List Char

/-- What stands behind a label. -/
def labelled? (label : String) (line : Line) : Option String :=
  (Text.afterStart? label.toList line).map String.ofList

/-- The number between two texts, and what is left of the line. -/
def number? (front back : String) (line : Line) : Option (Nat × Line) := do
  let digits ← Text.afterStart? front.toList line
  let rest ← Text.afterStart? back.toList (digits.dropWhile Char.isDigit)
  return (Binary64.digitsValue (digits.takeWhile Char.isDigit), rest)

/-- The number of a line that holds nothing else between the two texts. -/
def onlyNumber? (front back : String) (line : Line) : Option Nat :=
  match number? front back line with
  | some (n, []) => some n
  | _ => none

/-! ### Entries -/

def readMagnitude : List Line → Option String × List Line
  | [] => (none, [])
  | line :: rest =>
    match labelled? "    Magnitude: " line with
    | some text => (some text, rest)
    | none => (none, line :: rest)

/-- The message and the empty line behind it. -/
def readMessage? : List Line → Option (String × List Line)
  | line :: [] :: rest => (labelled? "    Message: " line).map fun text => (text, rest)
  | _ => none

def readEntry? : List Line → Option (Entry × List Line)
  | file :: rule :: severity :: rest => do
    let file ← labelled? "  " file
    let rule ← labelled? "    Rule: " rule
    let severity ← (labelled? "    Severity: " severity).bind Severity.ofLabel?
    let (magnitude, rest) := readMagnitude rest
    let (message, rest) ← readMessage? rest
    return (⟨file, rule, severity, magnitude, message⟩, rest)
  | _ => none

def readEntries? : Nat → List Line → Option (List Entry × List Line)
  | 0, lines => some ([], lines)
  | count + 1, lines => do
    let (entry, rest) ← readEntry? lines
    let (entries, rest) ← readEntries? count rest
    return (entry :: entries, rest)

/-! ### Sections -/

/-- The number in the heading of a section, if the line is that heading. -/
def headingCount? (severity : Severity) (line : Line) : Option Nat :=
  onlyNumber? (severity.title ++ " (") "):" line

/-- The section of a severity, if one stands here. -/
def readSection? (severity : Severity) : List Line → Option (List Entry × List Line)
  | [] => some ([], [])
  | heading :: rest =>
    match headingCount? severity heading with
    | some count => readEntries? count rest.tail
    | none => some ([], heading :: rest)

def readSections? : List Severity → List Line → Option (List Entry × List Line)
  | [], lines => some ([], lines)
  | severity :: more, lines => do
    let (entries, rest) ← readSection? severity lines
    let (others, rest) ← readSections? more rest
    return (entries ++ others, rest)

/-! ### The end -/

/-- Errors, warnings, infos and files. -/
def readSummary? (line : Line) : Option (Nat × Nat × Nat × Nat) := do
  let (errors, rest) ← number? "Summary: " " error(s), " line
  let (warnings, rest) ← number? "" " warning(s), " rest
  let (infos, rest) ← number? "" " info(s) in " rest
  let files ← onlyNumber? "" " file(s)" rest
  return (errors, warnings, infos, files)

/-- The note on dropped violations, if there is one, and the end of the text. -/
def readEvicted? : List Line → Option Nat
  | [[]] => some 0
  | [note, []] =>
    onlyNumber? "" " lower-magnitude violation(s) dropped by --max-errors" note
  | _ => none

namespace Digest

def ofEnd? (entries : List Entry) : List Line → Option Digest
  | _ :: checked :: withViolations :: summary :: rest => do
    let filesChecked ← onlyNumber? "Files analyzed: " "" checked
    let filesWithViolations ← onlyNumber? "Files with violations: " "" withViolations
    let (errors, warnings, infos, _) ← readSummary? summary
    let evicted ← readEvicted? rest
    return ⟨filesChecked, entries, filesWithViolations, errors, warnings, infos, evicted⟩
  | _ => none

def ofLines? : List Line → Option Digest
  | _ :: _ :: rest => do
    let (entries, rest) ← readSections? Severity.all rest
    ofEnd? entries rest
  | _ => none

def read? (text : String) : Option Digest := ofLines? (Text.segments '\n' text.toList)

end Digest

end Report

end SourceAudit
