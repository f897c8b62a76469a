/-
  SourceAudit/Analyzer.lean
  =========================
  **Analysing files.**

  A run asks the rules, keeps what reaches the level of each rule, puts the results
  of the rules one after the other and applies the cap.  What the rules remember is
  handed on to the next run; everything else starts anew.
-/
import SourceAudit.Run
import SourceAudit.Discovery

namespace SourceAudit

def Level.chooseFor (rule : String) (commandLine own global : Option Level) :
    Logged (Level × Level.Source) := do
  let (level, source) := Level.choose commandLine own global
  Logged.debug s!"rule {rule} reports at level {level.name} ({source.name})"
  return (level, source)

/-- What runs are made with. -/
structure Analyzer (σ : Type) where
  /-- The analysed directory, or file; an absolute path. -/
  root : Path
  rules : List (Registered σ)
  config : Config
  level : Option Level
  cap : Option Int

/-- What a run leaves behind. -/
structure Outcome (σ : Type) where
  report : Report
  calls : List Call
  rules : List (Registered σ)

namespace Analyzer

variable {σ : Type}

/-- An analyzer for a root that may be relative to a working directory. -/
def ofRoot (workingDirectory root : Path) (rules : List (Registered σ)) (config : Config)
    (level : Option Level) (cap : Option Int) : Analyzer σ :=
  ⟨workingDirectory.join root, rules, config, level, cap⟩

/-- The cap that counts: that of the command line, or else the configured one. -/
def effectiveCap (a : Analyzer σ) : Option Int := a.cap.or a.config.maxErrors

def resolver (a : Analyzer σ) : Resolver := ⟨a.root, a.config.sourceDirectory⟩

def tellPhase (previous next : String) : Logged Unit :=
  Logged.debug s!"Run phase: {previous} -> {next}"

/-- What a rule contributes: nothing when it failed, else what reaches its level. -/
def contribution (a : Analyzer σ) (job : Job σ) : Logged (List Violation) :=
  match job.output with
  | none => return []
  | some found => do
    let (level, _) ← Level.chooseFor job.name a.level job.config.level a.config.level
    return Violation.atLeast level.minimum found

def contributions (a : Analyzer σ) : List (Job σ) → Logged (List Violation)
  | [] => return []
  | job :: rest => do
    let first ← a.contribution job
    return first ++ (← a.contributions rest)

/-- Runs the rules over files, which may be relative to the root. -/
def run (a : Analyzer σ) (w : Workspace) (files : List Path) : Logged (Outcome σ) := do
  let (jobs, unknown) ← Run.plan a.rules a.config.enabledRules
  tellPhase "Pending" "Running"
  let (jobs, first) ← Run.perFile w a.resolver files jobs
  let (jobs, second) ← Run.projectWide w a.resolver files jobs
  tellPhase "Running" "Aggregating"
  tellPhase "Aggregating" "Filtering"
  let found ← a.contributions jobs
  tellPhase "Filtering" "Capping"
  let (kept, evicted) := Violation.capped a.effectiveCap found
  if 0 < evicted then Logged.info s!"Violation cap evicted {evicted} violations"
  tellPhase "Capping" "Done"
  Logged.info s!"Analysis complete: {kept.length} violations in {files.length} files"
  let account := first ++ second
  return ⟨⟨kept, unknown ++ account.diagnostics, files.length, evicted⟩, account.calls,
    Run.rememberAll jobs a.rules⟩

def after (a : Analyzer σ) (outcome : Outcome σ) : Analyzer σ :=
  { a with rules := outcome.rules }

def discover (a : Analyzer σ) (w : Workspace) (language : Language) :
    Logged (Except DiscoveryError (List Path)) :=
  match Discovery.read language a.config.exclude a.config.respectGitignore with
  | .error e => return .error e
  | .ok discovery => discovery.discover w a.root

def runLanguage (a : Analyzer σ) (w : Workspace) (language : Language) :
    Logged (Except DiscoveryError (Outcome σ)) := do
  match ← a.discover w language with
  | .error e => return .error e
  | .ok files =>
    Logged.info s!"Found {files.length} files to analyze"
    return .ok (← a.run w files)

end Analyzer

end SourceAudit
