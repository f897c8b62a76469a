/-
  SourceAudit/Rule/Metrics.lean
  =============================
  **Metrics of a file.**

  Three metrics are computed from the lines of a file.  A metric is evaluated when
  its own block sets a threshold other than zero.  For the share of comments less is
  worse, so its error threshold should lie below its warning threshold; where it does
  not, that is told once for each pair of thresholds, which the rule remembers.
-/
import SourceAudit.Rule
import SourceAudit.LineCount

namespace SourceAudit

inductive Metric where
  | sourceLines
  | longestLine
  | commentShare
deriving DecidableEq, Repr

namespace Metric

def name : String := "code_metrics"

/-- The metrics in the order of evaluation. -/
def all : List Metric := [.sourceLines, .longestLine, .commentShare]

def id : Metric → String
  | .sourceLines => "source-lines"
  | .longestLine => "longest-line"
  | .commentShare => "comment-percentage"

def direction : Metric → Direction
  | .commentShare => .lowerIsWorse
  | _ => .higherIsWorse

/-- `part` as a percentage of `whole`, to one decimal place. -/
def percentage (part whole : Nat) : Binary64 :=
  let share := ((Binary64.ofNat part).mul (Binary64.ofNat 100)).div (Binary64.ofNat whole)
  (share.mul (Binary64.ofNat 10)).roundHalfAway.div (Binary64.ofNat 10)

/-- The value of a metric; a file without code and comments has no share. -/
def value? (count : LineCount) : Metric → Option Binary64
  | .sourceLines => some (Binary64.ofNat count.code)
  | .longestLine => some (Binary64.ofNat count.longest)
  | .commentShare =>
    if count.code + count.comment = 0 then none
    else some (percentage count.comment (count.code + count.comment))

def isIdle (t : Thresholds) : Bool :=
  t.warning.all Binary64.isNegligible && t.error.all Binary64.isNegligible

/-- The pairs of thresholds that were told to be backwards. -/
abbrev Told := List (Metric × Thresholds)

/-- The error threshold of a metric lies on the wrong side of its warning threshold. -/
def isBackwards (m : Metric) (t : Thresholds) : Bool :=
  m.direction = .lowerIsWorse &&
    match t.warning, t.error with
    | some warning, some error => !error.isBelow warning
    | _, _ => false

def backwardsMessage (m : Metric) (t : Thresholds) : String :=
  let shown := fun x : Option Binary64 => x.elim "" Binary64.plainText
  s!"Metric '{m.id}' has backwards thresholds: error ({shown t.error}) " ++
    s!"should be below warning ({shown t.warning})"

/-- Tells about backwards thresholds unless that was done before. -/
def tellBackwards (m : Metric) (t : Thresholds) (told : Told) : Logged Told :=
  if m.isBackwards t && !told.contains (m, t) then do
    Logged.warn (m.backwardsMessage t)
    return (m, t) :: told
  else return told

def violation (f : FileContext) (m : Metric) (value : Binary64) (severity : Severity)
    (limit : Binary64) : Violation :=
  ⟨f.relativePath, name, severity,
    s!"{m.id} = {value.plainText} {m.direction.sign} {limit.plainText} (threshold)", some value⟩

def check (f : FileContext) (config : RuleConfig) (count : LineCount) (told : Told)
    (m : Metric) : Logged (List Violation × Told) :=
  match (config.metrics.lookup m.id).filter fun t => !isIdle t with
  | none => return ([], told)
  | some base => do
    let told ← m.tellBackwards base told
    match m.value? count with
    | none => return ([], told)
    | some value =>
      let thresholds ← f.thresholds config (some m.id)
      match thresholds.classify m.direction value with
      | none => return ([], told)
      | some (severity, limit) => return ([m.violation f value severity limit], told)

def checkAll (f : FileContext) (config : RuleConfig) (count : LineCount) (told : Told) :
    List Metric → Logged (List Violation × Told)
  | [] => return ([], told)
  | m :: rest => do
    let (found, told) ← check f config count told m
    let (more, told) ← checkAll f config count told rest
    return (found ++ more, told)

def rule : Rule Told where
  name := name
  description := "Checks source lines, longest line and comment percentage per file"
  languages := []
  check := .perFile fun f config told => do
    let count := LineCount.ofText f.extension? f.content.toList
    let (found, told) ← checkAll f config count told all
    return (.ok found, told)

end Metric

end SourceAudit
