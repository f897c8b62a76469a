/-
  SourceAudit/Report/Csv.lean
  ===========================
  **Violations as comma-separated values.**

  A header row, then one row of five fields for each violation, every row ended by a
  carriage return and a line feed.  A field with a comma, a quote or a line end
  stands between quotes, and each quote inside it is written twice.
-/
import SourceAudit.Violation
import SourceAudit.Binary64.Decimal

namespace SourceAudit.Csv

def needsQuotes (c : Char) : Bool := c = ',' || c = '"' || c = '\n' || c = '\r'

/-- The text of a quoted field: quotes twice. -/
def doubled : List Char → List Char
  | [] => []
  | c :: rest => if c = '"' then '"' :: '"' :: doubled rest else c :: doubled rest

def field (s : List Char) : List Char :=
  if s.any needsQuotes then '"' :: doubled s ++ ['"'] else s

def commaSeparated : List (List Char) → List Char
  | [] => []
  | [f] => field f
  | f :: rest => field f ++ ',' :: commaSeparated rest

def row (fields : List (List Char)) : List Char :=
  commaSeparated fields ++ ['\r', '\n']

def header : List (List Char) :=
  ["file_path".toList, "rule_name".toList, "severity".toList, "message".toList,
    "magnitude".toList]

def fields (v : Violation) : List (List Char) :=
  [v.file.toList, v.rule.toList, v.severity.label.toList, v.message.toList,
    (v.magnitude.elim "" Binary64.plainText).toList]

def ofViolations (violations : List Violation) : String :=
  String.ofList ((header :: violations.map fields).flatMap row)

end SourceAudit.Csv
