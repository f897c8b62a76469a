/-
  SourceAudit/CommandLine/Listing.lean
  ====================================
  **The command that lists the rules.**
-/
import SourceAudit.CommandLine.Arguments
import SourceAudit.CommandLine.Failure
import SourceAudit.Rule.BuiltIn
import SourceAudit.Json.Printer
import SourceAudit.Text.Column

namespace SourceAudit.CommandLine

def listed (language : Option Language) : List (Rule Metric.Told) :=
  language.elim Rule.builtIn Rule.builtInFor

def ruleDatum {σ : Type} (r : Rule σ) : Datum :=
  .table [("name", .text r.name), ("mode", .text r.mode),
    ("languages", .list (r.supported.map fun l => .text l.name)),
    ("description", .text r.description)]

def tableLine (name mode description : String) : String :=
  Text.padded 26 name ++ " " ++ Text.padded 14 mode ++ " " ++ description

def tableLines {σ : Type} (rules : List (Rule σ)) : List String :=
  ["Available rules:", "", tableLine "Name" "Mode" "Description",
    String.ofList (List.replicate 90 '-')] ++
  (rules.map fun r => tableLine r.name r.mode r.description) ++
  ["", "Enable a rule in the config, e.g.:", "  [rules.max_lines_per_file]", "  enabled = true",
    "  warning = 300", "  error = 500"]

def listing (language : Option Language) : Format → String
  | .json => Json.pretty (.list ((listed language).map ruleDatum)) ++ "\n"
  | .text => String.join ((tableLines (listed language)).map fun l => l ++ "\n")

def listRules (w : Workspace) (language : Option Language) (format : Format) : Finish :=
  ⟨0, listing language format, "", w⟩

end SourceAudit.CommandLine
