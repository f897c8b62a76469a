/-
  SourceAudit/Config.lean
  =======================
  **Configurations.**

  A configuration has global settings and one block for each rule, in order.  A
  block says whether the rule runs, gives its thresholds, and lists exceptions for
  certain files; what else it holds are options for the rule to read.  Everything
  here is checked: levels are known and patterns can be read.
-/
import SourceAudit.FilePattern
import SourceAudit.Threshold
import SourceAudit.Shape
import SourceAudit.Path

namespace SourceAudit

/-- Thresholds by metric, in order. -/
abbrev MetricTable := List (String × Thresholds)

/-- Other thresholds for the files of a pattern. -/
structure ExceptionEntry where
  pattern : FilePattern
  thresholds : Thresholds
  metrics : MetricTable
  /-- Why the exception is there; for readers only. -/
  reason : Option String
deriving DecidableEq, Repr

namespace ExceptionEntry

/-- At least one threshold is set, for the rule or for a metric. -/
def hasEffect (e : ExceptionEntry) : Bool :=
  !e.thresholds.isOff || e.metrics.any fun m => !m.2.isOff

/-- The thresholds of the exception for a metric: its own if it has an entry, else
    those of the exception itself. -/
def overrides (e : ExceptionEntry) (metric : Option String) : Thresholds :=
  (metric.bind fun id => e.metrics.lookup id).getD e.thresholds

end ExceptionEntry

structure RuleConfig where
  enabled : Bool
  thresholds : Thresholds
  level : Option Level
  exceptions : List ExceptionEntry
  metrics : MetricTable
  options : List (String × Datum)
deriving Repr

namespace RuleConfig

/-- The block of a rule that runs without any setting. -/
def default : RuleConfig := ⟨true, .off, none, [], [], []⟩

instance : Inhabited RuleConfig := ⟨default⟩

/-- The thresholds before exceptions: those of the metric if it has an entry. -/
def base (c : RuleConfig) (metric : Option String) : Thresholds :=
  (metric.bind fun id => c.metrics.lookup id).getD c.thresholds

/-! ### Options -/

def option? (c : RuleConfig) (key : String) : Option Datum := c.options.lookup key

def bool (c : RuleConfig) (key : String) (fallback : Bool) : Bool :=
  match c.option? key with
  | some (.bool b) => b
  | _ => fallback

/-- An option that is an integer of 64 bits, or else `fallback`. -/
def int (c : RuleConfig) (key : String) (fallback : Int) : Int :=
  match (c.option? key).map Shape.integer with
  | some (.ok i) => i
  | _ => fallback

def text? (c : RuleConfig) (key : String) : Option String :=
  match c.option? key with
  | some (.text s) => some s
  | _ => none

def texts? (c : RuleConfig) (key : String) : Option (List String) :=
  match c.option? key with
  | some (.list items) =>
    some <| items.filterMap fun d =>
      match d with
      | .text s => some s
      | _ => none
  | _ => none

def shaped? {α : Type} (c : RuleConfig) (decode : Datum → Except ShapeError α) (key : String) :
    Option α :=
  (c.option? key).bind fun d => (decode d).toOption

end RuleConfig

structure Config where
  level : Option Level
  /-- Cap on the violations of a run; without effect when not positive. -/
  maxErrors : Option Int
  /-- Globs for files that are left out. -/
  exclude : List String
  respectGitignore : Bool
  /-- The blocks of the rules, each name once. -/
  rules : List (String × RuleConfig)
  /-- The directory of the file the configuration was read from. -/
  sourceDirectory : Option Path
deriving Repr

namespace Config

/-- No rule runs. -/
def default : Config := ⟨none, none, [], true, [], none⟩

def withSourceDirectory (c : Config) (directory : Option Path) : Config :=
  { c with sourceDirectory := directory.filter fun d => !d.text.isEmpty }

def rule? (c : Config) (name : String) : Option RuleConfig := c.rules.lookup name

def enabledRules (c : Config) : List (String × RuleConfig) :=
  c.rules.filter fun r => r.2.enabled

def isEnabled (c : Config) (name : String) : Bool := (c.rule? name).any RuleConfig.enabled

end Config

end SourceAudit
