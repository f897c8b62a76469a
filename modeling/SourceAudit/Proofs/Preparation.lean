/-
  SourceAudit/Proofs/Preparation.lean
  ===================================
  **What is done before the rules are asked.**

  The command that analyses files first finds the path, the configuration and the files, and
  each of these can fail (`unprepared_iff`).  The outcome is an analyzer with its files
  (`prepare`), and the report is that of the run of one over the other (`analyze_eq`).
-/
import SourceAudit.CommandLine.Check
import SourceAudit.Proofs.Gitignore.Run

namespace SourceAudit.CommandLine

/-- The files of a path that is a file. -/
def fileAlone (w : Workspace) (s : CheckSettings) (target : Path) (a : Analyzer Metric.Told) :
    Except Failure (List Path) :=
  match Discovery.read s.language a.config.exclude a.config.respectGitignore with
  | .error reason => .error (.discovery reason)
  | .ok discovery => (discovery.discover w target).value.mapError .discovery

/-- The files the settings ask for, when the configuration is known. -/
def filesFor (w : Workspace) (s : CheckSettings) (target : Path) (a : Analyzer Metric.Told) :
    Except Failure (List Path) :=
  if w.isFile target then fileAlone w s target a
  else (a.discover w s.language).value.mapError .analysis

/-- The configuration for what is analysed. -/
def configFor (w : Workspace) (s : CheckSettings) (target : Path) : Except Failure Config :=
  (loadConfig w (ConfigSource.find w target s.rules).value).value

/-- The analyzer and the files of the run that the settings ask for. -/
def prepare (w : Workspace) (s : CheckSettings) :
    Except Failure (Analyzer Metric.Told × List Path) :=
  match w.canonical s.path with
  | .error reason => .error (.target s.path reason)
  | .ok target =>
    match configFor w s target with
    | .error failure => .error failure
    | .ok config =>
      let a := analyzerFor w s target config
      (filesFor w s target a).map fun files => (a, files)

theorem analyzeFile_eq (w : Workspace) (s : CheckSettings) (target : Path)
    (a : Analyzer Metric.Told) :
    (analyzeFile w s target a).value =
      (fileAlone w s target a).map fun files => (a.run w files).value.report := by
  cases hread : Discovery.read s.language a.config.exclude a.config.respectGitignore with
  | error reason =>
    simp only [analyzeFile, fileAlone, hread]
    rfl
  | ok discovery =>
    simp only [analyzeFile, fileAlone, hread, Logged.value_bind]
    cases (discovery.discover w target).value <;> rfl

theorem analyzeDirectory_eq (w : Workspace) (s : CheckSettings) (a : Analyzer Metric.Told) :
    (analyzeDirectory w s a).value = ((a.discover w s.language).value.mapError .analysis).map
      fun files => (a.run w files).value.report := by
  simp only [analyzeDirectory, Analyzer.runLanguage, Logged.value_bind]
  cases (a.discover w s.language).value <;> rfl

/-- **Preparation and run.**  The report is that of the prepared run, and nothing is reported
    when the preparation fails. -/
theorem analyze_eq (w : Workspace) (s : CheckSettings) :
    (analyze w s).value = (prepare w s).map fun run => (run.1.run w run.2).value.report := by
  cases hcanonical : w.canonical s.path with
  | error reason =>
    simp only [analyze, prepare, hcanonical]
    rfl
  | ok target =>
    cases hconfig : (loadConfig w (ConfigSource.find w target s.rules).value).value with
    | error failure =>
      simp only [analyze, prepare, configFor, hcanonical, hconfig, Logged.value_bind]
      rfl
    | ok config =>
      have hanalyze : (analyze w s).value =
          (filesFor w s target (analyzerFor w s target config)).map
            fun files => ((analyzerFor w s target config).run w files).value.report := by
        simp only [analyze, filesFor, hcanonical, hconfig, Logged.value_bind]
        split
        · exact analyzeFile_eq ..
        · exact analyzeDirectory_eq ..
      rw [hanalyze]
      simp only [prepare, configFor, hcanonical, hconfig]
      cases filesFor w s target (analyzerFor w s target config) <;> rfl

variable {w : Workspace} {s : CheckSettings} {a : Analyzer Metric.Told} {files : List Path}

theorem analyze_of_prepared (hprepared : prepare w s = .ok (a, files)) :
    (analyze w s).value = .ok (a.run w files).value.report := by
  rw [analyze_eq, hprepared]
  rfl

/-- What a preparation went through. -/
theorem prepare_steps (hprepared : prepare w s = .ok (a, files)) :
    ∃ target config, w.canonical s.path = .ok target ∧ configFor w s target = .ok config ∧
      a = analyzerFor w s target config ∧ filesFor w s target a = .ok files := by
  unfold prepare at hprepared
  cases hcanonical : w.canonical s.path with
  | error reason =>
    rw [hcanonical] at hprepared
    cases hprepared
  | ok target =>
    simp only [hcanonical] at hprepared
    cases hconfig : configFor w s target with
    | error failure =>
      rw [hconfig] at hprepared
      cases hprepared
    | ok config =>
      simp only [hconfig] at hprepared
      cases hfiles : filesFor w s target (analyzerFor w s target config) with
      | error failure =>
        rw [hfiles] at hprepared
        cases hprepared
      | ok found =>
        rw [hfiles] at hprepared
        cases hprepared
        exact ⟨target, config, rfl, hconfig, rfl, hfiles⟩

theorem prepare_of_steps {target : Path} {config : Config}
    (hcanonical : w.canonical s.path = .ok target) (hconfig : configFor w s target = .ok config)
    (hfiles : filesFor w s target (analyzerFor w s target config) = .ok files) :
    prepare w s = .ok (analyzerFor w s target config, files) := by
  simp only [prepare, hcanonical, hconfig, hfiles]
  rfl

theorem config_analyzerFor (w : Workspace) (s : CheckSettings) (target : Path)
    (config : Config) : (analyzerFor w s target config).config = config := rfl

theorem hasBuiltIn_analyzerFor (w : Workspace) (s : CheckSettings) (target : Path)
    (config : Config) : (analyzerFor w s target config).HasBuiltIn := by
  intro r hr
  obtain ⟨rule, hrule, rfl⟩ := List.mem_map.mp hr
  exact hrule

/-- The path, the configuration or the files cannot be had. -/
inductive Unprepared (w : Workspace) (s : CheckSettings) : Prop
  | path {reason : FileError} (hpath : w.canonical s.path = .error reason)
  | config {target : Path} {failure : Failure} (hpath : w.canonical s.path = .ok target)
      (hconfig : configFor w s target = .error failure)
  | files {target : Path} {config : Config} {failure : Failure}
      (hpath : w.canonical s.path = .ok target) (hconfig : configFor w s target = .ok config)
      (hfiles : filesFor w s target (analyzerFor w s target config) = .error failure)

/-- Nothing else keeps a run from taking place. -/
theorem unprepared_iff : Unprepared w s ↔ ∃ failure, prepare w s = .error failure := by
  constructor
  · intro h
    cases h with
    | @path reason hpath => exact ⟨.target s.path reason, by simp only [prepare, hpath]⟩
    | @config target failure hpath hconfig =>
      exact ⟨failure, by simp only [prepare, hpath, hconfig]⟩
    | @files target config failure hpath hconfig hfiles =>
      refine ⟨failure, ?_⟩
      simp only [prepare, hpath, hconfig, hfiles]
      rfl
  · rintro ⟨failure, hprepare⟩
    cases hpath : w.canonical s.path with
    | error reason => exact .path hpath
    | ok target =>
      cases hconfig : configFor w s target with
      | error reason => exact .config hpath hconfig
      | ok config =>
        cases hfiles : filesFor w s target (analyzerFor w s target config) with
        | error reason => exact .files hpath hconfig hfiles
        | ok files =>
          rw [prepare_of_steps hpath hconfig hfiles] at hprepare
          cases hprepare

end SourceAudit.CommandLine
