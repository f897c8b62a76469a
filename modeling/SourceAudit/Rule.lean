/-
  SourceAudit/Rule.lean
  =====================
  **Rules.**

  A rule is asked about one file at a time, or once about all files of a run.  It
  answers with violations or with an error.  What it remembers from one question to
  the next is a value that is handed in and out, so that a rule is a function like
  any other: its answer depends on the question and on that memory alone.
-/
import SourceAudit.Threshold.Resolver
import SourceAudit.FileTree
import SourceAudit.Violation
import SourceAudit.Text.Lines
import SourceAudit.Language

namespace SourceAudit

/-! ### What a rule is asked -/

structure FileContext where
  path : Path
  content : String
  resolver : Resolver
deriving DecidableEq, Repr

namespace FileContext

def relativePath (f : FileContext) : String := f.path.displayedFrom f.resolver.base

def thresholds (f : FileContext) (config : RuleConfig) (metric : Option String) :
    Logged Thresholds :=
  f.resolver.resolve f.path config metric

def lineCount (f : FileContext) : Nat := (Text.lines f.content.toList).length

/-- The extension of the file in lower case. -/
def extension? (f : FileContext) : Option String := f.path.extension?.map Language.lowered

end FileContext

structure ProjectContext where
  root : Path
  files : List Path
  resolver : Resolver
  workspace : Workspace

namespace ProjectContext

def relativePath (p : ProjectContext) (file : Path) : String := file.displayedFrom p.root

end ProjectContext

/-! ### What a rule answers -/

inductive RuleError where
  | io (path : Path) (reason : FileError)
  | tool (message : String)
  | invalidOption (option message : String)
  | panicked (message : Option String)        -- it broke down, with a text or without
deriving DecidableEq, Repr

def RuleError.message : RuleError → String
  | .io path reason => s!"failed to read {path.text}: {reason.message}"
  | .tool message => message
  | .invalidOption option message => s!"invalid option `{option}`: {message}"
  | .panicked message => "rule panicked: " ++ message.getD "unknown panic"

abbrev RuleAnswer := Except RuleError (List Violation)

/-- A part of the work of a rule: it may log and may fail. -/
abbrev RuleWork (α : Type) := ExceptT RuleError Logged α

namespace RuleWork

def fail {α : Type} (e : RuleError) : RuleWork α := throw e

/-- What is known already, or why it is not. -/
def ofResult {α : Type} (result : Except RuleError α) : RuleWork α := ExceptT.mk (pure result)

def warn (message : String) : RuleWork Unit := ExceptT.lift (Logged.warn message)

def debug (message : String) : RuleWork Unit := ExceptT.lift (Logged.debug message)

@[simp] theorem value_pure {α : Type} (a : α) : (pure a : RuleWork α).run.value = .ok a := rfl

@[simp] theorem value_lift {α : Type} (x : Logged α) :
    (ExceptT.lift x : RuleWork α).run.value = .ok x.value := rfl

@[simp] theorem value_fail {α : Type} (e : RuleError) :
    (fail e : RuleWork α).run.value = .error e := rfl

@[simp] theorem value_ofResult {α : Type} (result : Except RuleError α) :
    (ofResult result).run.value = result := rfl

@[simp] theorem value_warn (message : String) : (warn message).run.value = .ok () := rfl

@[simp] theorem value_debug (message : String) : (debug message).run.value = .ok () := rfl

@[simp] theorem value_bind {α β : Type} (x : RuleWork α) (f : α → RuleWork β) :
    (x >>= f).run.value = x.run.value.bind fun a => (f a).run.value := by
  change (x.run >>= ExceptT.bindCont f).value = _
  rw [Logged.value_bind]
  cases x.run.value <;> rfl

end RuleWork

/-! ### Rules -/

/-- How a rule with memory `σ` is asked. -/
inductive RuleCheck (σ : Type) where
  | perFile (ask : FileContext → RuleConfig → σ → Logged (RuleAnswer × σ))
  | projectWide (ask : ProjectContext → RuleConfig → σ → Logged (RuleAnswer × σ))

structure Rule (σ : Type) where
  /-- The name of its block in the configuration. -/
  name : String
  description : String
  /-- The languages it is for; none means all. -/
  languages : List Language
  check : RuleCheck σ

namespace Rule

/-- A rule for the whole run that remembers nothing. -/
def projectWide {σ : Type} (name description : String) (languages : List Language)
    (work : ProjectContext → RuleConfig → RuleWork (List Violation)) : Rule σ :=
  ⟨name, description, languages,
    .projectWide fun p c memory => do return (← (work p c).run, memory)⟩

def isPerFile {σ : Type} (r : Rule σ) : Bool :=
  match r.check with
  | .perFile _ => true
  | .projectWide _ => false

def mode {σ : Type} (r : Rule σ) : String :=
  if r.isPerFile then "per-file" else "project-wide"

def supports {σ : Type} (r : Rule σ) (l : Language) : Bool :=
  r.languages.isEmpty || r.languages.contains l

def supported {σ : Type} (r : Rule σ) : List Language := Language.all.filter r.supports

def inspected {σ : Type} (r : Rule σ) : String :=
  "RuleKind \x7b name: " ++ Text.quoted r.name ++ ", mode: " ++ Text.quoted r.mode ++ " \x7d"

/-- The rule with its memory as a part of a larger one. -/
def within {σ τ : Type} (get : τ → σ) (set : τ → σ → τ) (r : Rule σ) : Rule τ :=
  { name := r.name
    description := r.description
    languages := r.languages
    check :=
      match r.check with
      | .perFile ask => .perFile fun f c t => do
        let (answer, s) ← ask f c (get t)
        return (answer, set t s)
      | .projectWide ask => .projectWide fun p c t => do
        let (answer, s) ← ask p c (get t)
        return (answer, set t s) }

end Rule

end SourceAudit
