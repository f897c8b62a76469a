/-
  SourceAudit/Severity.lean
  =========================
  **Severities, reporting levels and how the level of a rule is chosen.**

  A violation has a severity, and a run shows those at or above the minimum of a
  level.  The level of a rule is the first one that is set: the one of the command
  line, the rule's own, the global one; without any, everything is shown.
-/

namespace SourceAudit

inductive Severity where
  | info
  | warning
  | error
deriving DecidableEq, Repr

namespace Severity

/-- The order `info < warning < error`. -/
def rank : Severity → Nat
  | .info => 0
  | .warning => 1
  | .error => 2

def name : Severity → String
  | .info => "info"
  | .warning => "warning"
  | .error => "error"

def label : Severity → String
  | .info => "INFO"
  | .warning => "WARNING"
  | .error => "ERROR"

def ofName? : String → Option Severity
  | "info" => some .info
  | "warning" => some .warning
  | "error" => some .error
  | _ => none

def all : List Severity := [.error, .warning, .info]

end Severity

/-- A lower bound on what is reported. -/
inductive Level where
  | error      -- errors only
  | warning    -- warnings and errors
  | all        -- everything
deriving DecidableEq, Repr

namespace Level

def minimum : Level → Severity
  | .error => .error
  | .warning => .warning
  | .all => .info

def name : Level → String
  | .error => "error"
  | .warning => "warning"
  | .all => "all"

def ofName? : String → Option Level
  | "error" => some .error
  | "warning" => some .warning
  | "all" => some .all
  | _ => none

inductive Source where
  | commandLine
  | rule
  | global
  | default
deriving DecidableEq, Repr

def Source.name : Source → String
  | .commandLine => "Cli"
  | .rule => "Rule"
  | .global => "Global"
  | .default => "Default"

def choose (commandLine rule global : Option Level) : Level × Source :=
  match commandLine, rule, global with
  | some level, _, _ => (level, .commandLine)
  | none, some level, _ => (level, .rule)
  | none, none, some level => (level, .global)
  | none, none, none => (.all, .default)

end Level

end SourceAudit
