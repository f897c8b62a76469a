/-
  SourceAudit/Proofs/Strictness.lean
  ==================================
  **A stricter level hides no error.**

  The filter of a stricter level takes violations away before the cap counts, so those
  that stay compete with fewer others.  Whatever reaches the stricter level and was shown
  before is shown again:

    * what is left of a list, by positions      — `capped_atLeast`;
    * for one list, by positions                — `mem_shown_of_stricter`;
    * for two runs on the same answers          — `Analyzer.violations_atLevel`;
    * for the exit code of the program          — `CommandLine.exitCode_of_stricter`.
-/
import SourceAudit.Proofs.Ranking
import SourceAudit.Proofs.Isolation
import SourceAudit.CommandLine.Check

namespace SourceAudit

/-! ### One list -/

namespace Violation

/-- The entries of a list that reach a severity. -/
def reaching (minimum : Severity) (violations : List Violation) : List Placed :=
  violations.zipIdx.filter fun v => minimum.rank ≤ v.1.severity.rank

/-- What the filter and then the cap leave of a list, with the positions in that list. -/
def shown (minimum : Severity) (cap : Option Int) (violations : List Violation) : List Placed :=
  (reaching minimum violations).filter (keeps cap (reaching minimum violations))

/-- Filter and cap leave the entries that are shown.  Entries may be written in any way that
    keeps severities and magnitudes, so their positions can be read off what is left. -/
theorem capped_atLeast {f : Placed → Violation}
    (hf : ∀ v, (f v).severity = v.1.severity ∧ (f v).magnitude = v.1.magnitude)
    (minimum : Severity) (cap : Option Int) (violations : List Violation) :
    (capped cap (atLeast minimum (violations.zipIdx.map f))).1 =
      (shown minimum cap violations).map f := by
  have hreaching : atLeast minimum (violations.zipIdx.map f) =
      (reaching minimum violations).map f := by
    rw [atLeast, List.filter_map, reaching]
    congr 1
    apply List.filter_congr
    intro v _
    rw [Function.comp_apply, (hf v).1]
  have hplaced : (reaching minimum violations).Pairwise fun a b => a.2 < b.2 :=
    (placed_zipIdx violations).filter _
  rw [hreaching, capped_map hplaced fun v => (hf v).2]
  rfl

theorem map_shown (minimum : Severity) (cap : Option Int) (violations : List Violation) :
    (shown minimum cap violations).map Prod.fst = (capped cap (atLeast minimum violations)).1 := by
  rw [← capped_atLeast (fun _ => ⟨rfl, rfl⟩), List.zipIdx_map_fst]

/-- What is shown and reaches a stricter severity is shown at that severity too. -/
theorem mem_shown_of_stricter {lax strict : Severity} (hstrict : lax.rank ≤ strict.rank)
    {cap : Option Int} {violations : List Violation} {v : Placed}
    (hv : v ∈ shown lax cap violations) (hreaches : strict.rank ≤ v.1.severity.rank) :
    v ∈ shown strict cap violations := by
  rw [shown, List.mem_filter, reaching, List.mem_filter] at hv
  obtain ⟨⟨hentry, -⟩, hkept⟩ := hv
  have hfewer : (reaching strict violations).countP (outranks · v) ≤
      (reaching lax violations).countP (outranks · v) := by
    rw [reaching, reaching, List.countP_filter, List.countP_filter]
    apply List.countP_mono_left
    intro w _ hw
    simp only [Bool.and_eq_true, decide_eq_true_eq] at hw ⊢
    exact ⟨hw.1, Nat.le_trans hstrict hw.2⟩
  rw [shown, List.mem_filter, reaching, List.mem_filter]
  refine ⟨⟨hentry, by simpa using hreaches⟩, ?_⟩
  change keeps cap (reaching strict violations) v = true
  change keeps cap (reaching lax violations) v = true at hkept
  cases cap with
  | none => rfl
  | some limit =>
    simp only [keeps, Bool.or_eq_true, decide_eq_true_eq] at hkept ⊢
    omega

end Violation

/-! ### Two runs -/

namespace Analyzer

variable {σ : Type}

/-- The analyzer with a level of the command line. -/
def atLevel (a : Analyzer σ) (level : Level) : Analyzer σ := { a with level := some level }

/-- All that the rules of a run give, whatever their levels are. -/
def given (a : Analyzer σ) (w : Workspace) (files : List Path) : List Violation :=
  a.planned.flatMap fun block => (a.outputAlone w files block.1 block.2).getD []

/-- A level of the command line counts for every rule, so it filters all that was given. -/
theorem contributions_atLevel (a : Analyzer σ) (level : Level) (w : Workspace)
    (files : List Path) :
    (a.atLevel level).planned.flatMap ((a.atLevel level).contributionAlone w files) =
      Violation.atLeast level.minimum (a.given w files) := by
  have hblock (block : RuleConfig × Registered σ) :
      (a.atLevel level).contributionAlone w files block =
        Violation.atLeast level.minimum ((a.outputAlone w files block.1 block.2).getD []) := by
    have houtput : (a.atLevel level).outputAlone w files block.1 block.2 =
        a.outputAlone w files block.1 block.2 := rfl
    rw [contributionAlone, houtput]
    cases a.outputAlone w files block.1 block.2 <;> rfl
  have hplanned : (a.atLevel level).planned = a.planned := rfl
  rw [hplanned, given, Violation.atLeast, List.filter_flatMap]
  congr 1
  funext block
  exact hblock block

/-- What a run reports at a level of the command line. -/
theorem violations_atLevel (a : Analyzer σ) (level : Level) (w : Workspace) (files : List Path) :
    ((a.atLevel level).run w files).value.report.violations =
      (Violation.shown level.minimum a.effectiveCap (a.given w files)).map Prod.fst := by
  have hreport := congrArg Prod.fst ((a.atLevel level).report_run w files)
  rw [contributions_atLevel] at hreport
  rw [Violation.map_shown]
  exact hreport

theorem hasErrors_of_stricter (a : Analyzer σ) {lax strict : Level}
    (hstrict : lax.minimum.rank ≤ strict.minimum.rank) (w : Workspace) (files : List Path)
    (herrors : ((a.atLevel lax).run w files).value.report.hasErrors = true) :
    ((a.atLevel strict).run w files).value.report.hasErrors = true := by
  rw [Report.hasErrors, violations_atLevel, List.any_map, List.any_eq_true] at herrors ⊢
  obtain ⟨v, hv, herror⟩ := herrors
  have hseverity : v.1.severity = .error := by simpa using herror
  refine ⟨v, Violation.mem_shown_of_stricter hstrict hv ?_, herror⟩
  rw [hseverity]
  cases strict <;> decide

end Analyzer

/-! ### The exit code -/

namespace Workspace

/-- Where a text written to a path goes, as names below the root. -/
def placeFor (w : Workspace) (path : Path) : Except FileError (List String) :=
  match w.resolve path with
  | .ok names =>
    match w.tree.at? names with
    | some (.directory _) => .error .isADirectory
    | _ => .ok names
  | .error e =>
    match e, path.parent?, path.fileName? with
    | .notFound, some directory, some name =>
      (if directory.text.isEmpty then .ok w.workingNames else w.resolve directory).map (· ++ [name])
    | e, _, _ => .error e

theorem writeText_eq (w : Workspace) (path : Path) (text : String) :
    w.writeText path text = (w.placeFor path).map fun names =>
      { w with tree := FileTree.put (.file (.text text)) names w.tree } := by
  cases hresolve : w.resolve path with
  | ok names =>
    simp only [writeText, placeFor, hresolve]
    rcases w.tree.at? names with _ | (content | entries) <;> rfl
  | error e =>
    simp only [writeText, placeFor, hresolve]
    cases path.parent? with
    | none => cases e <;> rfl
    | some directory =>
      cases path.fileName? with
      | none => cases e <;> rfl
      | some name =>
        cases e with
        | notFound =>
          dsimp only
          split
          · rfl
          · cases w.resolve directory <;> rfl
        | _ => rfl

/-- Whether a text can be written does not depend on the text. -/
theorem writeText_ok_of_ok {w written : Workspace} {path : Path} {text : String}
    (hwritten : w.writeText path text = .ok written) (other : String) :
    ∃ rewritten, w.writeText path other = .ok rewritten := by
  rw [writeText_eq] at hwritten ⊢
  cases hplace : w.placeFor path with
  | error e =>
    rw [hplace] at hwritten
    cases hwritten
  | ok names => exact ⟨_, rfl⟩

end Workspace

namespace CommandLine

def CheckSettings.atLevel (s : CheckSettings) (level : Level) : CheckSettings :=
  { s with level := some level }

theorem analyzeFile_atLevel (w : Workspace) (s : CheckSettings) (target : Path)
    (a : Analyzer Metric.Told) : ∃ files : Except Failure (List Path), ∀ level,
      (analyzeFile w s target (a.atLevel level)).value =
        files.map fun files => ((a.atLevel level).run w files).value.report := by
  cases hread : Discovery.read s.language a.config.exclude a.config.respectGitignore with
  | error reason =>
    refine ⟨.error (.discovery reason), fun level => ?_⟩
    simp only [analyzeFile, Analyzer.atLevel, hread]
    rfl
  | ok discovery =>
    refine ⟨((discovery.discover w target).value).mapError .discovery, fun level => ?_⟩
    simp only [analyzeFile, Analyzer.atLevel, hread, Logged.value_bind]
    cases (discovery.discover w target).value <;> rfl

theorem analyzeDirectory_atLevel (w : Workspace) (s : CheckSettings) (a : Analyzer Metric.Told) :
    ∃ files : Except Failure (List Path), ∀ level,
      (analyzeDirectory w s (a.atLevel level)).value =
        files.map fun files => ((a.atLevel level).run w files).value.report := by
  refine ⟨(a.discover w s.language).value.mapError .analysis, fun level => ?_⟩
  have hdiscover : (a.atLevel level).discover w s.language = a.discover w s.language := rfl
  simp only [analyzeDirectory, Analyzer.runLanguage, Logged.value_bind, hdiscover]
  cases (a.discover w s.language).value <;> rfl

/-- The level of the command line has no part in what is done before the run. -/
theorem analyze_atLevel (w : Workspace) (s : CheckSettings) :
    ∃ prepared : Except Failure (Analyzer Metric.Told × List Path), ∀ level,
      (analyze w (s.atLevel level)).value =
        prepared.map fun a => ((a.1.atLevel level).run w a.2).value.report := by
  cases hcanonical : w.canonical s.path with
  | error reason =>
    refine ⟨.error (.target s.path reason), fun level => ?_⟩
    have hsame : w.canonical (s.atLevel level).path = .error reason := hcanonical
    rw [analyze, hsame]
    rfl
  | ok target =>
    cases hconfig : (loadConfig w (ConfigSource.find w target s.rules).value).value with
    | error failure =>
      refine ⟨.error failure, fun level => ?_⟩
      have hsame : w.canonical (s.atLevel level).path = .ok target := hcanonical
      have hload : (loadConfig w (ConfigSource.find w target (s.atLevel level).rules).value).value =
        .error failure := hconfig
      rw [analyze, hsame]
      simp only [Logged.value_bind, hload]
      rfl
    | ok config =>
      let a := analyzerFor w s target config
      have hanalyze (level : Level) : (analyze w (s.atLevel level)).value =
          (if w.isFile target then analyzeFile w s target (a.atLevel level)
            else analyzeDirectory w s (a.atLevel level)).value := by
        have hsame : w.canonical (s.atLevel level).path = .ok target := hcanonical
        have hload :
            (loadConfig w (ConfigSource.find w target (s.atLevel level).rules).value).value =
              .ok config := hconfig
        rw [analyze, hsame]
        simp only [Logged.value_bind, hload]
        rfl
      by_cases hfile : w.isFile target = true
      · obtain ⟨files, hfiles⟩ := analyzeFile_atLevel w s target a
        refine ⟨files.map fun files => (a, files), fun level => ?_⟩
        rw [hanalyze, if_pos hfile, hfiles]
        cases files <;> rfl
      · obtain ⟨files, hfiles⟩ := analyzeDirectory_atLevel w s a
        refine ⟨files.map fun files => (a, files), fun level => ?_⟩
        rw [hanalyze, if_neg hfile, hfiles]
        cases files <;> rfl

/-- The program ends with 1 when an error is reported and the violations are written where
    they are asked for. -/
theorem finishCheck_exitCode_iff {ink : Ink} {w : Workspace} {s : CheckSettings} {r : Report} :
    (finishCheck ink w s r).exitCode = 1 ↔ r.hasErrors = true ∧
      ∀ directory, s.output = some directory →
        ∃ written, writeViolations w r directory = .ok written := by
  cases houtput : s.output with
  | none => cases herrors : r.hasErrors <;> simp [finishCheck, houtput, herrors]
  | some directory =>
    cases hwritten : writeViolations w r directory with
    | error failed => simp [finishCheck, houtput, hwritten, Failure.finish]
    | ok written =>
      cases herrors : r.hasErrors <;> simp [finishCheck, houtput, hwritten, herrors]

theorem writeViolations_ok_of_ok {w written : Workspace} {r : Report} {directory : Path}
    (hwritten : writeViolations w r directory = .ok written) (other : Report) :
    ∃ rewritten, writeViolations w other directory = .ok rewritten := by
  unfold writeViolations at hwritten ⊢
  cases hmade : w.makeDirectory directory with
  | error reason =>
    rw [hmade] at hwritten
    cases hwritten
  | ok made =>
    rw [hmade] at hwritten
    cases htext : made.writeText (directory.child "violations.csv") (Csv.ofViolations r.violations) with
    | error reason =>
      simp only [htext] at hwritten
      cases hwritten
    | ok done =>
      obtain ⟨rewritten, hother⟩ :=
        Workspace.writeText_ok_of_ok htext (Csv.ofViolations other.violations)
      refine ⟨rewritten, ?_⟩
      simp only [hother]

/-- An exit code 1 stays 1 at a stricter level. -/
theorem exitCode_of_stricter (ink : Ink) (w : Workspace) (s : CheckSettings) {lax strict : Level}
    (hstrict : lax.minimum.rank ≤ strict.minimum.rank)
    (hcode : (check ink w (s.atLevel lax)).value.exitCode = 1) :
    (check ink w (s.atLevel strict)).value.exitCode = 1 := by
  obtain ⟨prepared, hanalyze⟩ := analyze_atLevel w s
  simp only [check, Logged.value_bind, hanalyze] at hcode ⊢
  cases prepared with
  | error failure => exact hcode
  | ok prepared =>
    obtain ⟨a, files⟩ := prepared
    obtain ⟨herrors, hwritten⟩ := finishCheck_exitCode_iff.mp hcode
    refine finishCheck_exitCode_iff.mpr ⟨a.hasErrors_of_stricter hstrict w files herrors, ?_⟩
    intro directory hdirectory
    obtain ⟨written, hwritten⟩ := hwritten directory hdirectory
    exact writeViolations_ok_of_ok hwritten _

end CommandLine

/-! ### Stricter levels -/

/-- **A stricter level keeps what it may show.**  The filter and the cap leave some entries
    of a list, however these are written; of these, every one that reaches a stricter severity is left by the stricter
    filter and the same cap.  So an error that a run shows at one level of the command line
    is shown at every stricter level, and the program still ends with 1. -/
theorem stricter_level_keeps_errors :
    (∀ (violations : List Violation) (cap : Option Int),
      (∀ minimum, (Violation.shown minimum cap violations).Sublist violations.zipIdx) ∧
      (∀ (minimum : Severity) (f : Violation.Placed → Violation),
        (∀ v, (f v).severity = v.1.severity ∧ (f v).magnitude = v.1.magnitude) →
          (Violation.capped cap (Violation.atLeast minimum (violations.zipIdx.map f))).1 =
            (Violation.shown minimum cap violations).map f) ∧
      ∀ lax strict : Severity, lax.rank ≤ strict.rank →
        ∀ v ∈ Violation.shown lax cap violations, strict.rank ≤ v.1.severity.rank →
          v ∈ Violation.shown strict cap violations) ∧
    (∀ {σ : Type} (a : Analyzer σ) (w : Workspace) (files : List Path),
      (∀ level, ((a.atLevel level).run w files).value.report.violations =
        (Violation.shown level.minimum a.effectiveCap (a.given w files)).map Prod.fst) ∧
      ∀ lax strict : Level, lax.minimum.rank ≤ strict.minimum.rank →
        ∀ v ∈ Violation.shown lax.minimum a.effectiveCap (a.given w files),
          v.1.severity = .error →
            v ∈ Violation.shown strict.minimum a.effectiveCap (a.given w files)) ∧
    (∀ (ink : Ink) (w : Workspace) (s : CommandLine.CheckSettings)
      (lax strict : Level), lax.minimum.rank ≤ strict.minimum.rank →
        (CommandLine.check ink w (s.atLevel lax)).value.exitCode = 1 →
          (CommandLine.check ink w (s.atLevel strict)).value.exitCode = 1) := by
  refine ⟨fun violations cap => ⟨fun minimum => ?_, ?_, ?_⟩, fun a w files => ⟨?_, ?_⟩, ?_⟩
  · exact List.filter_sublist.trans List.filter_sublist
  · intro minimum f hf
    exact Violation.capped_atLeast hf minimum cap violations
  · intro lax strict hstrict v hv hreaches
    exact Violation.mem_shown_of_stricter hstrict hv hreaches
  · exact fun level => a.violations_atLevel level w files
  · intro lax strict hstrict v hv herror
    refine Violation.mem_shown_of_stricter hstrict hv ?_
    rw [herror]
    cases strict <;> decide
  · intro ink w s lax strict hstrict hcode
    exact CommandLine.exitCode_of_stricter ink w s hstrict hcode

/-- Two equally heavy errors and a heavier remark, with room for two. -/
def crowdedList : List Violation :=
  [⟨"a.dart", "r", .error, "first", some (.infinity true)⟩,
    ⟨"a.dart", "r", .info, "remark", some (.nan false)⟩,
    ⟨"b.dart", "r", .warning, "no weight", none⟩,
    ⟨"b.dart", "r", .error, "second", some (.infinity true)⟩]

/-- A file that is too long, and a configuration that says so. -/
def longFileWorkspace : Workspace where
  tree := .directory [("w", .directory
    [("code-analyzer.toml",
        .file (.text "[rules.max_lines_per_file]\nenabled = true\nwarning = 1\nerror = 2\n")),
     ("a.dart", .file (.text "a\nb\nc\n"))])]
  workingNames := ["w"]
  home := none
  settingsDirectory := none

def longFileSettings : CommandLine.CheckSettings :=
  ⟨.dart, ⟨"a.dart"⟩, none, none, some 1, .normal, .text, none⟩

/-- An entry with its position for a message. -/
def numbered (v : Violation.Placed) : Violation := { v.1 with message := toString v.2 }

/-- The second error is shown at both levels; the first one only when the remark is gone. -/
theorem stricter_level_keeps_errors_crowded :
    (⟨"b.dart", "r", .error, "second", some (.infinity true)⟩, 3) ∈
        Violation.shown .info (some 2) crowdedList ∧
      (⟨"b.dart", "r", .error, "second", some (.infinity true)⟩, 3) ∈
        Violation.shown .error (some 2) crowdedList ∧
      (Violation.capped (some 2) (Violation.atLeast .info (crowdedList.zipIdx.map numbered))).1.map
        Violation.message = ["1", "3"] ∧
      (Violation.capped (some 2) (Violation.atLeast .error (crowdedList.zipIdx.map numbered))).1.map
        Violation.message = ["0", "3"] ∧
      (CommandLine.check .plain longFileWorkspace (longFileSettings.atLevel .all)).value.exitCode =
        1 ∧
      (CommandLine.check .plain longFileWorkspace (longFileSettings.atLevel .error)).value.exitCode =
        1 := by
  have hsecond : (⟨"b.dart", "r", .error, "second", some (.infinity true)⟩, 3) ∈
      Violation.shown .info (some 2) crowdedList := by decide +kernel
  have hcode : (CommandLine.check .plain longFileWorkspace
      (longFileSettings.atLevel .all)).value.exitCode = 1 := by decide +kernel
  obtain ⟨hlists, -, hcodes⟩ := stricter_level_keeps_errors
  obtain ⟨-, hleft, hkept⟩ := hlists crowdedList (some 2)
  have hnumbered (minimum : Severity) := hleft minimum numbered fun _ => ⟨rfl, rfl⟩
  refine ⟨hsecond, ?_, ?_, ?_, hcode, ?_⟩
  · exact hkept .info .error (by decide) _ hsecond (by decide)
  · rw [hnumbered]
    decide +kernel
  · rw [hnumbered]
    decide +kernel
  · exact hcodes .plain longFileWorkspace longFileSettings .all .error (by decide) hcode

end SourceAudit
