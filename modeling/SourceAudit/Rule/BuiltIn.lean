/-
  SourceAudit/Rule/BuiltIn.lean
  =============================
  **The rules that come with the library.**
-/
import SourceAudit.Rule.FileLength
import SourceAudit.Rule.Metrics
import SourceAudit.Rule.ImportBoundary
import SourceAudit.Rule.UnusedFiles
import SourceAudit.Rule.UnusedPackages

namespace SourceAudit.Rule

/-- The rules, in the order in which they are listed.  The only memory is that of the
    rule for metrics. -/
def builtIn : List (Rule Metric.Told) :=
  [FileLength.rule, Metric.rule, ImportBoundary.rule, UnusedFiles.rule, UnusedPackages.rule]

def builtInFor (l : Language) : List (Rule Metric.Told) := builtIn.filter fun r => r.supports l

end SourceAudit.Rule
