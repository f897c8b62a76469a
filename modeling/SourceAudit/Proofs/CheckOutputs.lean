/-
  SourceAudit/Proofs/CheckOutputs.lean
  ====================================
  **The outputs of a run agree.**

  The command that analyses files prints a report, writes the violations to a file and ends
  with an exit code.  All three come from the same report (`check_outputs`): what is printed
  as JSON is read as that report, since its magnitudes are tenths, and what is written is
  read back as its violations.  When the path, the configuration or the files cannot be had,
  nothing is printed and no file is touched.
-/
import SourceAudit.CommandLine
import SourceAudit.Proofs.CommaSeparated
import SourceAudit.Proofs.Magnitudes
import SourceAudit.Proofs.Preparation
import SourceAudit.Proofs.ReportRoundTrip

namespace SourceAudit

/-- A report is read back with a line end behind it when its magnitudes are. -/
theorem Report.ofJson?_line (r : Report) (hfiles : r.filesChecked < 2 ^ 64)
    (hevicted : r.evicted < 2 ^ 64)
    (hmagnitudes : ∀ v ∈ r.violations, ∀ x, v.magnitude = some x →
      x.isFinite = true ∧ Json.ReadsBack (.real x)) :
    Report.ofJson? (r.json ++ "\n") = some r := by
  have hcount : ∀ n : ℕ, n < 2 ^ 64 → Json.ReadsBack (.integer n) := fun n hn =>
    Json.readsBack_integer (Nat.le_of_lt_succ hn)
  have hintegers : ∀ i, Datum.Inside (.number (.integer i)) r.toDatum →
      Json.ReadsBack (.integer i) := by
    intro i inside
    rcases Report.number_inside inside with ⟨_, _, _, _, hreal⟩ | hchecked | hdropped
    · cases hreal
    · rw [hchecked]
      exact hcount r.filesChecked hfiles
    · rw [hdropped]
      exact hcount r.evicted hevicted
  have hreals : ∀ x, Datum.Inside (.number (.real x)) r.toDatum → x.isFinite = true →
      Json.ReadsBack (.real x) := by
    intro x inside _
    rcases Report.number_inside inside with ⟨v, hv, y, hmagnitude, hsame⟩ | hinteger | hinteger
    · cases hsame
      exact (hmagnitudes v hv x hmagnitude).2
    · cases hinteger
    · cases hinteger
  have hgaps : ∀ c ∈ "\n".toList, Json.isGap c = true := by
    intro c hc
    obtain rfl : c = '\n' := by simpa using hc
    rfl
  have hkept := Report.withFiniteMagnitudes_eq fun v hv x hx => (hmagnitudes v hv x hx).1
  rw [Report.ofJson?, Report.json,
    Json.read?_pretty_gaps r.depth_toDatum hintegers hreals hgaps]
  refine (congrArg Except.toOption r.ofDatum_asPrinted).trans ?_
  rw [hkept]
  rfl

theorem Report.hasErrors_iff {r : Report} :
    r.hasErrors = true ↔ ∃ v ∈ r.violations, v.severity = .error := by
  simp [Report.hasErrors]

namespace CommandLine

variable {w : Workspace} {s : CheckSettings}

/-! ### One report -/

/-- A report that the command makes is that of a run with the rules of the library. -/
theorem run_of_analyze {report : Report} (hanalyze : (analyze w s).value = .ok report) :
    ∃ (a : Analyzer Metric.Told) (files : List Path),
      a.HasBuiltIn ∧ report = (a.run w files).value.report := by
  rw [analyze_eq] at hanalyze
  cases hprepared : prepare w s with
  | error failure =>
    rw [hprepared] at hanalyze
    cases hanalyze
  | ok run =>
    obtain ⟨a, files⟩ := run
    rw [hprepared] at hanalyze
    obtain ⟨target, config, -, -, rfl, -⟩ := prepare_steps hprepared
    exact ⟨_, files, hasBuiltIn_analyzerFor w s target config, (Except.ok.inj hanalyze).symm⟩

theorem readsBack_of_analyze (hmemory : w.tree.FitsMemory) {report : Report}
    (hanalyze : (analyze w s).value = .ok report) {v : Violation} (hv : v ∈ report.violations)
    {x : Binary64} (hx : v.magnitude = some x) :
    x.isFinite = true ∧ Json.ReadsBack (.real x) := by
  obtain ⟨a, files, hbuiltIn, rfl⟩ := run_of_analyze hanalyze
  obtain ⟨r, hr, rfl⟩ := Analyzer.tenth_of_mem_report hbuiltIn hmemory hv hx
  exact ⟨Binary64.tenth_isFinite hr, Json.readsBack_tenth hr⟩

/-- The file of a directory that was written holds the violations. -/
theorem readText_of_writeViolations {written : Workspace} {r : Report} {directory : Path}
    (hwritten : writeViolations w r directory = .ok written) :
    written.readText (directory.child "violations.csv") = .ok (Csv.ofViolations r.violations) := by
  unfold writeViolations at hwritten
  cases hmade : w.makeDirectory directory with
  | error reason =>
    rw [hmade] at hwritten
    cases hwritten
  | ok made =>
    simp only [hmade] at hwritten
    cases htext : made.writeText (directory.child "violations.csv")
        (Csv.ofViolations r.violations) with
    | error reason =>
      rw [htext] at hwritten
      cases hwritten
    | ok done =>
      rw [htext] at hwritten
      cases hwritten
      have hname : Path.IsPlain "violations.csv" := by decide
      refine Workspace.readText_of_writeText hname ?_ htext
      rw [Path.child, Path.segments_join_getLast?, Path.segments_plain hname]
      rfl

/-- A command that does not end with 2 made a report and wrote it down. -/
theorem steps_of_exitCode {ink : Ink} {directory : Path} (houtput : s.output = some directory)
    (hcode : (check ink w s).value.exitCode ≠ 2) :
    ∃ report written, (analyze w s).value = .ok report ∧
      writeViolations w report directory = .ok written ∧
      (check ink w s).value = ⟨if report.hasErrors then 1 else 0, printed ink s report,
        warnings report, written⟩ := by
  rw [check, Logged.value_bind] at hcode ⊢
  cases hanalyze : (analyze w s).value with
  | error failure =>
    rw [hanalyze] at hcode
    exact absurd rfl hcode
  | ok report =>
    simp only [hanalyze, Logged.value_pure, finishCheck, houtput] at hcode ⊢
    cases hwritten : writeViolations w report directory with
    | error failed =>
      rw [hwritten] at hcode
      exact absurd rfl hcode
    | ok written => exact ⟨report, written, rfl, hwritten, rfl⟩

/-- **One report for all outputs.**  When the program ends with 0 or 1, what it printed is read
    as the report of the run, the file it wrote has the violations of that report as records,
    and the exit code says whether one of them is an error.  When the run cannot be prepared,
    it ends with 2, prints nothing and leaves all files as they were.  The counts of a report
    are machine words, and files are read into memory as a whole. -/
theorem check_outputs (ink : Ink) (w : Workspace) (s : CheckSettings) {directory : Path}
    (hformat : s.format = .json) (houtput : s.output = some directory) :
    (w.tree.FitsMemory →
      (∀ report, (analyze w s).value = .ok report →
        report.filesChecked < 2 ^ 64 ∧ report.evicted < 2 ^ 64) →
      (execute ink w (.check s)).value.exitCode = 0 ∨
        (execute ink w (.check s)).value.exitCode = 1 →
      ∃ report csv, (analyze w s).value = .ok report ∧
        Report.ofJson? (execute ink w (.check s)).value.output = some report ∧
        (execute ink w (.check s)).value.workspace.readText (directory.child "violations.csv") =
          .ok csv ∧
        (∀ records, Csv.Document csv.toList records ↔
          records = (["file_path", "rule_name", "severity", "message", "magnitude"] ::
            report.violations.map fun v =>
              [v.file, v.rule,
                match v.severity with
                  | .error => "ERROR"
                  | .warning => "WARNING"
                  | .info => "INFO",
                v.message, (v.magnitude.map Binary64.plainText).getD ""]).map
              (·.map String.toList)) ∧
        ((execute ink w (.check s)).value.exitCode = 1 ↔
          ∃ v ∈ report.violations, v.severity = .error)) ∧
    (Unprepared w s →
      (execute ink w (.check s)).value.exitCode = 2 ∧
      (execute ink w (.check s)).value.output = "" ∧
      (execute ink w (.check s)).value.workspace = w) := by
  have hexecute : execute ink w (.check s) = check ink w s := rfl
  rw [hexecute]
  constructor
  · intro hmemory hcounts hcode
    have htwo : (check ink w s).value.exitCode ≠ 2 := by
      rcases hcode with hcode | hcode <;> rw [hcode] <;> decide
    obtain ⟨report, written, hanalyze, hwritten, hfinish⟩ := steps_of_exitCode houtput htwo
    obtain ⟨hfiles, hevicted⟩ := hcounts report hanalyze
    refine ⟨report, Csv.ofViolations report.violations, hanalyze, ?_, ?_,
      Csv.document_iff report.violations, ?_⟩
    · have hprinted : printed ink s report = report.json ++ "\n" := by rw [printed, hformat]
      rw [hfinish, hprinted]
      refine report.ofJson?_line hfiles hevicted fun v hv x hx => ?_
      exact readsBack_of_analyze hmemory hanalyze hv hx
    · rw [hfinish]
      exact readText_of_writeViolations hwritten
    · rw [hfinish, ← Report.hasErrors_iff]
      cases report.hasErrors <;> simp
  · intro hunprepared
    obtain ⟨failure, hprepare⟩ := unprepared_iff.mp hunprepared
    have hanalyze : (analyze w s).value = .error failure := by
      rw [analyze_eq, hprepare]
      rfl
    have hfinish : (check ink w s).value = failure.finish "" "" w := by
      rw [check, Logged.value_bind, hanalyze]
      rfl
    rw [hfinish]
    exact ⟨rfl, rfl, rfl⟩

/-- The words of `longFileSettings` with a report and a directory asked for. -/
def exportWords : List String :=
  ["check", "--path", "a.dart", "--language", "dart", "--max-errors=1", "--format", "json",
    "--output", "out"]

def exportSettings : CheckSettings :=
  { longFileSettings with format := .json, output := some ⟨"out"⟩ }

/-- A file that is too long makes the program end with 1, and a path without a file with 2. -/
theorem check_outputs_long_file :
    let report : Report :=
      ⟨[⟨"a.dart", "max_lines_per_file", .error, "File has 3 lines (limit: 2)",
        some (.ofNat 3)⟩], [], 1, 0⟩
    readArguments exportWords = .ok ⟨false, .check exportSettings⟩ ∧
    (analyze longFileWorkspace exportSettings).value = .ok report ∧
    Report.ofJson? (execute .plain longFileWorkspace (.check exportSettings)).value.output =
      some report ∧
    (∃ csv,
      (execute .plain longFileWorkspace (.check exportSettings)).value.workspace.readText
        ⟨"out/violations.csv"⟩ = .ok csv ∧
      ∀ records, Csv.Document csv.toList records ↔
        records = [["file_path", "rule_name", "severity", "message", "magnitude"],
          ["a.dart", "max_lines_per_file", "ERROR", "File has 3 lines (limit: 2)", "3"]].map
            (·.map String.toList)) ∧
    (execute .plain longFileWorkspace (.check exportSettings)).value.exitCode = 1 ∧
    (execute .plain longFileWorkspace
      (.check { exportSettings with path := ⟨"b.dart"⟩ })).value.exitCode = 2 := by
  intro expected
  have hcode : (execute .plain longFileWorkspace (.check exportSettings)).value.exitCode = 1 := by
    decide +kernel
  have hmemory : longFileWorkspace.tree.FitsMemory := by
    apply FileTree.fitsMemory_directory
    rw [List.forall_mem_singleton]
    apply FileTree.fitsMemory_directory
    rw [List.forall_mem_cons, List.forall_mem_singleton]
    exact ⟨FileTree.fitsMemory_text (by decide), FileTree.fitsMemory_text (by decide)⟩
  have hreport : (analyze longFileWorkspace exportSettings).value.toOption = some expected := by
    decide +kernel
  have hexpected {report : Report}
      (hanalyze : (analyze longFileWorkspace exportSettings).value = .ok report) :
      report = expected := by
    rw [hanalyze] at hreport
    exact Option.some.inj hreport
  have hcounts : ∀ report, (analyze longFileWorkspace exportSettings).value = .ok report →
      report.filesChecked < 2 ^ 64 ∧ report.evicted < 2 ^ 64 := by
    intro report hanalyze
    obtain rfl := hexpected hanalyze
    decide
  have hunprepared : Unprepared longFileWorkspace { exportSettings with path := ⟨"b.dart"⟩ } :=
    .path (show longFileWorkspace.canonical ⟨"b.dart"⟩ = .error .notFound by rfl)
  obtain ⟨hrun, -⟩ := check_outputs .plain longFileWorkspace exportSettings rfl rfl
  obtain ⟨-, hfailed⟩ := check_outputs .plain longFileWorkspace
    { exportSettings with path := ⟨"b.dart"⟩ } rfl rfl
  obtain ⟨report, csv, hanalyze, hread, hcsv, hrecords, -⟩ := hrun hmemory hcounts (.inr hcode)
  obtain rfl := hexpected hanalyze
  have hmagnitude : (Binary64.ofNat 3).plainText = "3" := by decide +kernel
  refine ⟨by decide +kernel, hanalyze, hread, ⟨csv, hcsv, fun records => ?_⟩, hcode,
    (hfailed hunprepared).1⟩
  rw [hrecords, List.map_singleton]
  dsimp only
  rw [Option.map_some, Option.getD_some, hmagnitude]

end CommandLine

end SourceAudit
