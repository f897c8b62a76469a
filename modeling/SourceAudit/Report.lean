/-
  SourceAudit/Report.lean
  =======================
  **The result of a run.**

  A report holds the violations that are shown, what went wrong on the way, the
  number of files of the run, and how many violations the cap dropped.
-/
import SourceAudit.Violation
import SourceAudit.Entries

namespace SourceAudit

/-- A rule that failed or a file that could not be read. -/
structure Diagnostic where
  rule : Option String
  file : Option String
  message : String
deriving DecidableEq, Repr

namespace Diagnostic

def ofRule (rule message : String) : Diagnostic := ⟨some rule, none, message⟩

def ofFile (file message : String) : Diagnostic := ⟨none, some file, message⟩

def line (d : Diagnostic) : String :=
  match d.rule, d.file with
  | some rule, some file => s!"{rule} ({file}): {d.message}"
  | some rule, none => s!"{rule}: {d.message}"
  | none, some file => s!"{file}: {d.message}"
  | none, none => d.message

end Diagnostic

structure Report where
  violations : List Violation
  diagnostics : List Diagnostic
  /-- Files handed to the run. -/
  filesChecked : Nat
  /-- Violations the cap dropped. -/
  evicted : Nat
deriving DecidableEq, Repr

/-- Violations of each severity. -/
structure SeverityCounts where
  errors : Nat
  warnings : Nat
  infos : Nat
deriving DecidableEq, Repr

namespace SeverityCounts

def zero : SeverityCounts := ⟨0, 0, 0⟩

/-- Counts one violation more. -/
def add (c : SeverityCounts) : Severity → SeverityCounts
  | .error => { c with errors := c.errors + 1 }
  | .warning => { c with warnings := c.warnings + 1 }
  | .info => { c with infos := c.infos + 1 }

def of (c : SeverityCounts) : Severity → Nat
  | .error => c.errors
  | .warning => c.warnings
  | .info => c.infos

theorem of_add (c : SeverityCounts) (severity other : Severity) :
    (c.add severity).of other = c.of other + if severity = other then 1 else 0 := by
  cases severity <;> cases other <;> rfl

end SeverityCounts

namespace Report

def ofSeverity (r : Report) (severity : Severity) : List Violation :=
  r.violations.filter fun v => v.severity = severity

def counts (r : Report) : SeverityCounts :=
  r.violations.foldl (fun c v => c.add v.severity) .zero

def count (r : Report) (severity : Severity) : Nat := r.counts.of severity

def hasErrors (r : Report) : Bool := r.violations.any fun v => v.severity = .error

/-- Some violation is a warning or an error. -/
def hasWarnings (r : Report) : Bool :=
  r.violations.any fun v => Severity.warning.rank ≤ v.severity.rank

/-- The files with violations. -/
def files (r : Report) : List String := Entries.sortedNames (r.violations.map Violation.file)

end Report

end SourceAudit
