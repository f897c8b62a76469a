/-
  SourceAudit/Report/Document.lean
  ================================
  **Reports as JSON documents.**

  A report is written with its fields in a fixed order and without those that are
  absent.  Reading takes the fields in any order and passes over unknown ones, but
  asks for every field that writing always writes, each once.
-/
import SourceAudit.Report
import SourceAudit.Shape
import SourceAudit.Json.Printer
import SourceAudit.Json.Reader

namespace SourceAudit

/-! ### Writing -/

/-- A field that is left out when absent. -/
def optionalField (name : String) (value : Option Datum) : List (String × Datum) :=
  match value with
  | none => []
  | some d => [(name, d)]

def Violation.toDatum (v : Violation) : Datum :=
  .table <|
    [("file_path", .text v.file), ("rule_name", .text v.rule),
      ("severity", .text v.severity.name), ("message", .text v.message)] ++
    optionalField "magnitude" (v.magnitude.map fun x => .number (.real x))

def Diagnostic.toDatum (d : Diagnostic) : Datum :=
  .table <|
    optionalField "rule_name" (d.rule.map .text) ++
    optionalField "file_path" (d.file.map .text) ++ [("message", .text d.message)]

def Report.toDatum (r : Report) : Datum :=
  .table
    [("violations", .list (r.violations.map Violation.toDatum)),
      ("diagnostics", .list (r.diagnostics.map Diagnostic.toDatum)),
      ("files_checked", .number (.integer r.filesChecked)),
      ("evicted", .number (.integer r.evicted))]

def Report.json (r : Report) : String := Json.pretty r.toDatum

/-! ### Reading -/

/-- A severity: its name, or a table from its name to `null`. -/
def Severity.ofDatum : Datum → Except ShapeError Severity
  | .text s => (Severity.ofName? s).elim (.error (.unexpected (.text s) "a severity")) .ok
  | .table [(s, .null)] =>
    (Severity.ofName? s).elim (.error (.unexpected (.text s) "a severity")) .ok
  | d => .error (.unexpected d "enum Severity")

def requiredField {α : Type} (name : String) : Option α → Except ShapeError α
  | some a => .ok a
  | none => .error (.missing name)

namespace Violation

/-- The fields of a violation read so far. -/
structure Draft where
  file : Option String
  rule : Option String
  severity : Option Severity
  message : Option String
  magnitude : Option Binary64

def Draft.step (d : Draft) : String × Datum → Except ShapeError Draft
  | ("file_path", x) => return { d with file := some (← Shape.text x) }
  | ("rule_name", x) => return { d with rule := some (← Shape.text x) }
  | ("severity", x) => return { d with severity := some (← Severity.ofDatum x) }
  | ("message", x) => return { d with message := some (← Shape.text x) }
  | ("magnitude", x) => return { d with magnitude := ← Shape.optional Shape.real x }
  | _ => return d

def ofDatum (x : Datum) : Except ShapeError Violation := do
  let d ← Shape.record "struct Violation" .refused
    ["file_path", "rule_name", "severity", "message", "magnitude"]
    Draft.step ⟨none, none, none, none, none⟩ x
  return ⟨← requiredField "file_path" d.file, ← requiredField "rule_name" d.rule,
    ← requiredField "severity" d.severity, ← requiredField "message" d.message, d.magnitude⟩

end Violation

namespace Diagnostic

structure Draft where
  rule : Option String
  file : Option String
  message : Option String

def Draft.step (d : Draft) : String × Datum → Except ShapeError Draft
  | ("rule_name", x) => return { d with rule := ← Shape.optional Shape.text x }
  | ("file_path", x) => return { d with file := ← Shape.optional Shape.text x }
  | ("message", x) => return { d with message := some (← Shape.text x) }
  | _ => return d

def ofDatum (x : Datum) : Except ShapeError Diagnostic := do
  let d ← Shape.record "struct RunDiagnostic" .refused ["rule_name", "file_path", "message"]
    Draft.step ⟨none, none, none⟩ x
  return ⟨d.rule, d.file, ← requiredField "message" d.message⟩

end Diagnostic

namespace Report

structure Draft where
  violations : Option (List Violation)
  diagnostics : Option (List Diagnostic)
  filesChecked : Option Nat
  evicted : Option Nat

def Draft.step (d : Draft) : String × Datum → Except ShapeError Draft
  | ("violations", x) => return { d with violations := some (← Shape.list Violation.ofDatum x) }
  | ("diagnostics", x) => return { d with diagnostics := some (← Shape.list Diagnostic.ofDatum x) }
  | ("files_checked", x) => return { d with filesChecked := some (← Shape.natural x) }
  | ("evicted", x) => return { d with evicted := some (← Shape.natural x) }
  | _ => return d

def ofDatum (x : Datum) : Except ShapeError Report := do
  let d ← Shape.record "struct AnalysisReport" .refused
    ["violations", "diagnostics", "files_checked", "evicted"]
    Draft.step ⟨none, none, none, none⟩ x
  return ⟨← requiredField "violations" d.violations, ← requiredField "diagnostics" d.diagnostics,
    ← requiredField "files_checked" d.filesChecked, ← requiredField "evicted" d.evicted⟩

def ofJson? (s : String) : Option Report := do
  (ofDatum (← Json.read? s)).toOption

end Report

end SourceAudit
