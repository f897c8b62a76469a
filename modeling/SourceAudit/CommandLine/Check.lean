/-
  SourceAudit/CommandLine/Check.lean
  ==================================
  **The command that analyses files.**

  It finds the configuration, runs the rules, prints the report, and on request
  writes the violations to a file.  A violation with the severity `error` in the report
  makes it end with 1.
-/
import SourceAudit.CommandLine.Arguments
import SourceAudit.CommandLine.Failure
import SourceAudit.Config.Source
import SourceAudit.Analyzer
import SourceAudit.Rule.BuiltIn
import SourceAudit.Report.Csv
import SourceAudit.Report.Document
import SourceAudit.Report.Layout

namespace SourceAudit.CommandLine

def loadConfig (w : Workspace) (source : ConfigSource) : Logged (Except Failure Config) :=
  match source.path? with
  | none => do
    Logged.warn "No configuration found; no rules are enabled"
    return .ok .default
  | some path => do
    if source.isGlobal then Logged.info s!"Using global config: {path.text}"
    else Logged.debug s!"Using config: {source.display}"
    match ← (Config.ofFile w path).run with
    | .ok config => return .ok config
    | .error reason => return .error (.config path reason)

def analyzerFor (w : Workspace) (s : CheckSettings) (target : Path) (config : Config) :
    Analyzer Metric.Told :=
  let root := if w.isFile target then target.parent?.getD ⟨""⟩ else target
  .ofRoot w.workingDirectory root (Rule.builtIn.map fun r => ⟨r, []⟩) config s.level s.maxErrors

def analyzeFile (w : Workspace) (s : CheckSettings) (target : Path) (a : Analyzer Metric.Told) :
    Logged (Except Failure Report) :=
  match Discovery.read s.language a.config.exclude a.config.respectGitignore with
  | .error reason => return .error (.discovery reason)
  | .ok discovery => do
    match ← discovery.discover w target with
    | .error reason => return .error (.discovery reason)
    | .ok files => return .ok (← a.run w files).report

def analyzeDirectory (w : Workspace) (s : CheckSettings) (a : Analyzer Metric.Told) :
    Logged (Except Failure Report) := do
  match ← a.runLanguage w s.language with
  | .error reason => return .error (.analysis reason)
  | .ok outcome => return .ok outcome.report

def analyze (w : Workspace) (s : CheckSettings) : Logged (Except Failure Report) :=
  match w.canonical s.path with
  | .error reason => return .error (.target s.path reason)
  | .ok target => do
    let source ← ConfigSource.find w target s.rules
    match ← loadConfig w source with
    | .error failure => return .error failure
    | .ok config =>
      let a := analyzerFor w s target config
      Logged.info <| s!"Analyzing {target.text} ({s.language.name}) with " ++
        s!"{config.enabledRules.length} rules"
      if w.isFile target then analyzeFile w s target a else analyzeDirectory w s a

/-! ### Output -/

def printed (ink : Ink) (s : CheckSettings) (r : Report) : String :=
  match s.format, s.verbosity with
  | .json, _ => r.json ++ "\n"
  | .text, .minimal => r.minimal
  | .text, .normal => r.normal ink
  | .text, .verbose => r.verbose ink

def warnings (r : Report) : String :=
  String.join (r.diagnostics.map fun d => s!"warning: {d.line}\n")

/-- Writes the violations into a directory, which is made when it is missing.  When that
    fails, the files are left as they are at that moment. -/
def writeViolations (w : Workspace) (r : Report) (directory : Path) :
    Except (Failure × Workspace) Workspace :=
  match w.makeDirectory directory with
  | .error reason => .error (.outputDirectory directory reason, w)
  | .ok made =>
    let path := directory.child "violations.csv"
    match made.writeText path (Csv.ofViolations r.violations) with
    | .error reason => .error (.write path reason, made)
    | .ok written => .ok written

def finishCheck (ink : Ink) (w : Workspace) (s : CheckSettings) (r : Report) : Finish :=
  let output := printed ink s r
  let code := if r.hasErrors then 1 else 0
  match s.output with
  | none => ⟨code, output, warnings r, w⟩
  | some directory =>
    match writeViolations w r directory with
    | .ok written => ⟨code, output, warnings r, written⟩
    | .error (failure, left) => failure.finish output (warnings r) left

def check (ink : Ink) (w : Workspace) (s : CheckSettings) : Logged Finish := do
  match ← analyze w s with
  | .error failure => return failure.finish "" "" w
  | .ok report => return finishCheck ink w s report

end SourceAudit.CommandLine
