/-
  SourceAudit/CommandLine/Template.lean
  =====================================
  **The command that writes a first configuration.**

  There is a template in either format.  A file that exists is only replaced on
  request.
-/
import SourceAudit.CommandLine.Failure

namespace SourceAudit.CommandLine

def tomlTemplate : List String :=
  ["# code-analyzer configuration",
    "# A rule runs only when its block below sets `enabled = true`.",
    "",
    "# Minimum severity to report: \"error\", \"warning\" or \"all\"",
    "log_level = \"all\"",
    "",
    "# Keep at most this many violations, preferring the largest (0 = no cap)",
    "# max_errors = 50",
    "",
    "[analyzer]",
    "exclude = [",
    "    \"**/build/**\",",
    "    \"**/.dart_tool/**\",",
    "    \"**/node_modules/**\",",
    "]",
    "respect_gitignore = true",
    "",
    "[rules.max_lines_per_file]",
    "enabled = true",
    "warning = 300",
    "error = 500",
    "",
    "# Exceptions are matched in order; the first match wins.",
    "[[rules.max_lines_per_file.exceptions]]",
    "file = \"lib/generated/*.dart\"",
    "warning = 500",
    "error = 1000",
    "reason = \"generated code\"",
    "",
    "[rules.code_metrics]",
    "enabled = true",
    "",
    "[rules.code_metrics.metrics.longest-line]",
    "warning = 120",
    "error = 160",
    "",
    "# [rules.import_rules]",
    "# enabled = true",
    "# analyze_path = \"lib\"",
    "# forbidden_imports = [",
    "#     \x7b from = \"lib/domain/**\", cannot_import = [\"lib/presentation/**\"], message = \"Domain must not depend on UI\" \x7d,",
    "# ]",
    "",
    "# [rules.dart_unused_files]",
    "# enabled = true",
    "# entry_points = [\"lib/main.dart\"]",
    "",
    "# [rules.dart_unused_dependencies]",
    "# enabled = true"]

def jsonTemplate : List String :=
  ["\x7b",
    "  \"log_level\": \"all\",",
    "  \"analyzer\": \x7b",
    "    \"exclude\": [\"**/build/**\", \"**/.dart_tool/**\", \"**/node_modules/**\"]",
    "  \x7d,",
    "  \"rules\": \x7b",
    "    \"max_lines_per_file\": \x7b",
    "      \"enabled\": true,",
    "      \"warning\": 300,",
    "      \"error\": 500,",
    "      \"exceptions\": [",
    "        \x7b \"file\": \"lib/generated/*.dart\", \"warning\": 500, \"error\": 1000, \"reason\": \"generated code\" \x7d",
    "      ]",
    "    \x7d,",
    "    \"code_metrics\": \x7b",
    "      \"enabled\": true,",
    "      \"metrics\": \x7b",
    "        \"longest-line\": \x7b \"warning\": 120, \"error\": 160 \x7d",
    "      \x7d",
    "    \x7d",
    "  \x7d",
    "\x7d"]

/-- The name of the file and its text. -/
def template (json : Bool) : String × String :=
  let (name, lines) :=
    if json then ("rules.json", jsonTemplate) else ("code-analyzer.toml", tomlTemplate)
  (name, String.join (lines.map fun l => l ++ "\n"))

/-- What is said once the file is written. -/
def nextSteps (name : String) : String :=
  s!"Created {name}\n\nNext steps:\n  1. Edit {name} to configure rules\n" ++
    "  2. Run: code-analyzer check --language dart\n"

def init (w : Workspace) (force json : Bool) : Finish :=
  let (name, text) := template json
  let path := Path.child ⟨"."⟩ name
  if (w.find? path).isSome && !force then (Failure.configExists path).finish "" "" w
  else
    match w.writeText path text with
    | .error reason => (Failure.write path reason).finish "" "" w
    | .ok written => ⟨0, nextSteps name, "", written⟩

end SourceAudit.CommandLine
