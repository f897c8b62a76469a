/-
  SourceAudit/Rule/FileLength.lean
  ================================
  **A limit on the lines of a file.**
-/
import SourceAudit.Rule
import SourceAudit.Text.Lines

namespace SourceAudit.FileLength

def name : String := "max_lines_per_file"

def message (lines : Nat) (severity : Severity) (limit : Binary64) : String :=
  match severity with
  | .error => s!"File has {lines} lines (limit: {limit.plainText})"
  | _ => s!"File has {lines} lines (warning: {limit.plainText})"

def violation? (f : FileContext) (thresholds : Thresholds) : Option Violation :=
  let value := Binary64.ofNat f.lineCount
  (thresholds.classify .higherIsWorse value).map fun (severity, limit) =>
    ⟨f.relativePath, name, severity, message f.lineCount severity limit, some value⟩

def violations (f : FileContext) (config : RuleConfig) : Logged (List Violation) := do
  return (violation? f (← f.thresholds config none)).toList

def rule {σ : Type} : Rule σ where
  name := name
  description := "Limits the number of lines per file"
  languages := []
  check := .perFile fun f config memory => do return (.ok (← violations f config), memory)

end SourceAudit.FileLength
