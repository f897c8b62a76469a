/-
  SourceAudit/CommandLine.lean
  ============================
  **The program, from its arguments to its end.**
-/
import SourceAudit.CommandLine.Check
import SourceAudit.CommandLine.Listing
import SourceAudit.CommandLine.Template

namespace SourceAudit.CommandLine

def execute (ink : Ink) (w : Workspace) : Command → Logged Finish
  | .check settings => check ink w settings
  | .listRules language format => return listRules w language format
  | .init force json => return init w force json

def interrupted (w : Workspace) : Interruption → Finish
  | .error reason => ⟨2, "", reason.message ++ "\n", w⟩
  | .noArguments => ⟨2, "", Form.help .program, w⟩
  | .help form => ⟨0, form.help, "", w⟩
  | .version => ⟨0, "code-analyzer 0.3.0\n", "", w⟩

end SourceAudit.CommandLine
