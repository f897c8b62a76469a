/-
  SourceAudit/Run.lean
  ====================
  **The rules of a run.**

  The rules that run are asked in the order of the configuration: first those for
  single files, file by file, and then those for the whole run, once each.  A rule
  that answers with an error is not asked again in the run and what it gave before
  is dropped; the error becomes a diagnostic and the other rules go on.
-/
import SourceAudit.Rule
import SourceAudit.Report

namespace SourceAudit

/-- A rule that takes part in runs, and what it remembers of earlier ones. -/
structure Registered (σ : Type) where
  rule : Rule σ
  memory : σ

inductive Call where
  | file (rule : String) (path : Path) (content : String)
  | project (rule : String)
deriving DecidableEq, Repr

/-- What is noted in the course of a run. -/
structure Account where
  diagnostics : List Diagnostic
  calls : List Call
deriving DecidableEq, Repr

namespace Account

def empty : Account := ⟨[], []⟩

instance : Append Account where
  append a b := ⟨a.diagnostics ++ b.diagnostics, a.calls ++ b.calls⟩

end Account

/-! ### One rule -/

structure Job (σ : Type) where
  name : String
  config : RuleConfig
  rule : Rule σ
  memory : σ
  /-- What it gave so far; nothing once it failed. -/
  output : Option (List Violation)

namespace Job

variable {σ : Type}

def hasFailed (job : Job σ) : Bool := job.output.isNone

def record (job : Job σ) (answer : RuleAnswer) (memory : σ) :
    Logged (Job σ × List Diagnostic) :=
  match answer with
  | .ok found =>
    return ({ job with memory := memory, output := job.output.map (· ++ found) }, [])
  | .error e => do
    Logged.warn s!"Rule {job.name} failed: {e.message}"
    return ({ job with memory := memory, output := none }, [.ofRule job.name e.message])

/-- Asks about a file, when the rule is for files and has not failed. -/
def askFile (f : FileContext) (job : Job σ) : Logged (Job σ × Account) :=
  match job.rule.check with
  | .projectWide _ => return (job, .empty)
  | .perFile ask =>
    if job.hasFailed then return (job, .empty)
    else do
      let (answer, memory) ← ask f job.config job.memory
      let (job, diagnostics) ← job.record answer memory
      return (job, ⟨diagnostics, [.file job.name f.path f.content]⟩)

def askProject (p : ProjectContext) (job : Job σ) : Logged (Job σ × Account) :=
  match job.rule.check with
  | .perFile _ => return (job, .empty)
  | .projectWide ask => do
    Logged.debug s!"Running project rule: {job.name}"
    let (answer, memory) ← ask p job.config job.memory
    let (job, diagnostics) ← job.record answer memory
    return (job, ⟨diagnostics, [.project job.name]⟩)

end Job

/-! ### All rules -/

namespace Run

variable {σ : Type}

/-- The rules that run, in order.  Of rules with the same name the first counts; a
    name without a rule is noted. -/
def plan (rules : List (Registered σ)) :
    List (String × RuleConfig) → Logged (List (Job σ) × List Diagnostic)
  | [] => return ([], [])
  | (name, config) :: rest =>
    match rules.find? fun r => r.rule.name = name with
    | none => do
      Logged.warn s!"Skipping unknown rule: {name}"
      let (jobs, diagnostics) ← plan rules rest
      return (jobs, .ofRule name "unknown rule, skipped" :: diagnostics)
    | some r => do
      Logged.debug s!"Enabled rule: {name} ({r.rule.mode})"
      let (jobs, diagnostics) ← plan rules rest
      return (⟨name, config, r.rule, r.memory, some []⟩ :: jobs, diagnostics)

def askAll (ask : Job σ → Logged (Job σ × Account)) :
    List (Job σ) → Logged (List (Job σ) × Account)
  | [] => return ([], .empty)
  | job :: rest => do
    let (job, first) ← ask job
    let (rest, more) ← askAll ask rest
    return (job :: rest, first ++ more)

/-- Asks about one file, which is skipped with a diagnostic when it cannot be read. -/
def askFile (w : Workspace) (resolver : Resolver) (file : Path) (jobs : List (Job σ)) :
    Logged (List (Job σ) × Account) := do
  let path := resolver.base.join file
  match w.readText path with
  | .error reason =>
    Logged.warn s!"Skipping unreadable file {path.text}: {reason.message}"
    return (jobs, ⟨[.ofFile file.text s!"could not be read: {reason.message}"], []⟩)
  | .ok content =>
    Logged.debug s!"Analyzing: {path.text}"
    askAll (Job.askFile ⟨path, content, resolver⟩) jobs

def askFiles (w : Workspace) (resolver : Resolver) :
    List Path → List (Job σ) → Logged (List (Job σ) × Account)
  | [], jobs => return (jobs, .empty)
  | file :: rest, jobs => do
    let (jobs, first) ← askFile w resolver file jobs
    let (jobs, more) ← askFiles w resolver rest jobs
    return (jobs, first ++ more)

/-- The phase for single files; no file is read when no rule is for files. -/
def perFile (w : Workspace) (resolver : Resolver) (files : List Path) (jobs : List (Job σ)) :
    Logged (List (Job σ) × Account) :=
  if jobs.any fun job => job.rule.isPerFile then askFiles w resolver files jobs
  else return (jobs, .empty)

def projectWide (w : Workspace) (resolver : Resolver) (files : List Path)
    (jobs : List (Job σ)) : Logged (List (Job σ) × Account) :=
  askAll (Job.askProject ⟨resolver.base, files.map resolver.base.join, resolver, w⟩) jobs

/-- Gives the first rule of a name a new memory. -/
def remember (name : String) (memory : σ) : List (Registered σ) → List (Registered σ)
  | [] => []
  | r :: rest =>
    if r.rule.name = name then { r with memory := memory } :: rest
    else r :: remember name memory rest

def rememberAll (jobs : List (Job σ)) (rules : List (Registered σ)) : List (Registered σ) :=
  jobs.foldl (fun rules job => remember job.name job.memory rules) rules

end Run

end SourceAudit
