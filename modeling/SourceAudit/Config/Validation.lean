/-
  SourceAudit/Config/Validation.lean
  ==================================
  **From a draft to a configuration.**

  The checks come in a fixed order and the first that fails gives the error: the
  global level, the globs for files left out, the blocks under `rules` one after the
  other, and then each other key of the top level, which must be a block of a rule
  that has none yet.  An exception without any threshold is accepted, with a warning.
-/
import SourceAudit.Config
import SourceAudit.Config.Draft
import SourceAudit.Config.Error
import SourceAudit.Event

namespace SourceAudit

/-- A check that may log and may fail. -/
abbrev Checked (α : Type) := ExceptT ConfigError Logged α

namespace Checked

def fail {α : Type} (e : ConfigError) : Checked α := throw e

def warn (message : String) : Checked Unit := ExceptT.lift (Logged.warn message)

end Checked

/-- A level by its name, if any is given. -/
def checkLevel (place : String) : Option String → Checked (Option Level)
  | none => return none
  | some value =>
    match Level.ofName? value with
    | some level => return some level
    | none => Checked.fail (.unknownLevel place value)

def checkExclude : (position : Nat) → List String → Checked Unit
  | _, [] => return ()
  | i, pattern :: rest =>
    match Glob.read pattern with
    | .ok _ => checkExclude (i + 1) rest
    | .error e =>
      Checked.fail (.invalidPattern s!"analyzer.exclude[{i}]" (.invalidGlob pattern e))

/-- One exception of a rule, at a position. -/
def checkException (rule : String) (index : Nat) (e : ExceptionDraft) :
    Checked ExceptionEntry := do
  match e.file with
  | none => Checked.fail (.exceptionWithoutFile rule index)
  | some file =>
    match FilePattern.read file with
    | .error reason =>
      Checked.fail (.invalidPattern s!"rules.{rule}.exceptions[{index}].file" reason)
    | .ok pattern =>
      let entry : ExceptionEntry := ⟨pattern, e.thresholds, e.metrics, e.reason⟩
      if !entry.hasEffect then
        Checked.warn <| s!"rules.{rule}.exceptions[{index}] ({pattern.text}) " ++
          "sets no threshold and has no effect"
      return entry

def checkExceptions (rule : String) : (position : Nat) → List ExceptionDraft →
    Checked (List ExceptionEntry)
  | _, [] => return []
  | i, e :: rest => do
    let entry ← checkException rule i e
    return entry :: (← checkExceptions rule (i + 1) rest)

/-- The block of a rule.  A rule runs only when its block says so. -/
def checkRule (name : String) (r : RuleDraft) : Checked RuleConfig := do
  let level ← checkLevel s!"rules.{name}.log_level" r.level
  let exceptions ← checkExceptions name 0 r.exceptions
  return ⟨r.enabled.getD false, r.thresholds, level, exceptions, r.metrics, r.options⟩

def checkRules : List (String × RuleDraft) → Checked (List (String × RuleConfig))
  | [] => return []
  | (name, r) :: rest => do
    let rule ← checkRule name r
    return (name, rule) :: (← checkRules rest)

/-- The shape of a block at the top level. -/
def topLevelRule (key : String) : Datum → Checked RuleDraft
  | .table entries =>
    match RuleDraft.ofDatum .refused (.table entries) with
    | .ok r => return r
    | .error reason => Checked.fail (.misshapen key reason)
  | _ => Checked.fail (.unknownKey key)

/-- Adds the blocks of the top level to those checked so far. -/
def checkTopLevel (rules : List (String × RuleConfig)) : List (String × Datum) →
    Checked (List (String × RuleConfig))
  | [] => return rules
  | (key, d) :: rest => do
    let draft ← topLevelRule key d
    if (rules.lookup key).isSome then Checked.fail (.duplicateRule key)
    else
      let rule ← checkRule key draft
      checkTopLevel (rules ++ [(key, rule)]) rest

def ConfigDraft.check (c : ConfigDraft) : Checked Config := do
  let level ← checkLevel "log_level" c.level
  checkExclude 0 c.exclude
  let rules ← checkRules c.rules
  let rules ← checkTopLevel rules c.topLevel
  return ⟨level, c.maxErrors, c.exclude, c.respectGitignore.getD true, rules, none⟩

end SourceAudit
