/-
  SourceAudit/Proofs/Unreached.lean
  =================================
  **Which files are reported as never imported.**

  A project reaches a file when a chain of directives leads to it from an existing
  entry point, or, with test imports, from a file that a test names
  (`Project.Reached`).  The rule follows directives only out of the files it looks
  at, so it sees the chains that stay inside these (`Project.ReachedInside`).

  * `Project.check_run`: the report is the list of the files looked at that no chain
    inside reaches, in path order, each once.
  * `Project.check_meets_iff`: it is the list of the files that no chain at all reaches
    exactly when every file looked at that is reached is also reached inside.
  * `reports_imported_file`: that can fail.  An entry point that is not looked at,
    such as `bin/main.dart`, does not count as an importer.
-/
import SourceAudit.Proofs.DartFiles

namespace SourceAudit.UnusedFiles

open Relation (ReflTransGen)
open DartPackage (Included listing mem_listing_iff listing_increasing files_run)

/-! ### The parts of a run -/

theorem mem_entryPoints_iff {w : Workspace} {root f : Path} {config : RuleConfig} :
    f ∈ entryPoints w root config ↔
      ∃ s ∈ (config.texts? "entry_points").getD ["lib/main.dart"],
        (root.join ⟨s⟩).folded = f ∧ w.isFile f = true := by
  rw [entryPoints, List.mem_filter, List.mem_map]
  constructor
  · rintro ⟨⟨s, hs, hf⟩, hfile⟩
    exact ⟨s, hs, hf, hfile⟩
  · rintro ⟨s, hs, hf, hfile⟩
    exact ⟨⟨s, hs, hf⟩, hfile⟩

/-- What the tests name is known without failing. -/
theorem testTargets_run (w : Workspace) (g : Package) (config : RuleConfig)
    (excludes : List Glob) :
    ∃ targets, (testTargets w g config excludes).run.value = .ok targets ∧
      ∀ f, f ∈ targets ↔ config.bool "include_test_imports" false = true ∧
        ∃ t, Included w (g.root.child "test") excludes t ∧ g.Names w t f := by
  rw [testTargets]
  cases hwanted : config.bool "include_test_imports" false with
  | false => exact ⟨[], rfl, by simp⟩
  | true =>
    cases hdirectory : w.isDirectory (g.root.child "test") with
    | false =>
      refine ⟨[], rfl, fun f => ?_⟩
      constructor
      · intro hf
        simp at hf
      · rintro ⟨-, t, ht, -⟩
        rw [ht.directory_exists] at hdirectory
        cases hdirectory
    | true =>
      refine ⟨(g.allTargets w (listing w (g.root.child "test") excludes)).value, ?_, fun f => ?_⟩
      · rw [Bool.and_self, if_pos rfl, RuleWork.value_bind, files_run excludes hdirectory]
        rfl
      · rw [Package.mem_allTargets_iff]
        simp only [mem_listing_iff hdirectory, true_and]

theorem mem_unreached_iff {files starts : List Path} {edges : List (Path × List Path)} {f : Path} :
    f ∈ unreached files starts edges ↔
      f ∈ files ∧ ¬ ∃ start ∈ starts, ReflTransGen (Reachable.Edge edges) start f := by
  rw [unreached, List.mem_filter, ← Reachable.mem_fromStarts_iff]
  simp

theorem unreached_increasing {files : List Path} (hfiles : Path.Increasing files)
    (starts : List Path) (edges : List (Path × List Path)) :
    Path.Increasing (unreached files starts edges) := by
  rw [unreached]
  exact hfiles.filter _

/-- In an existing directory, with an entry point, nothing stops the rule. -/
theorem checkDirectory_run {p : ProjectContext} {config : RuleConfig} {root directory : Path}
    {excludes : List Glob} {manifest : Manifest} {targets : List Path}
    (hdirectory : p.workspace.isDirectory directory = true)
    (hexcludes : PatternOption.excludes config = .ok excludes)
    (hmanifest : Manifest.ofFile p.workspace (root.child Manifest.fileName) = .ok manifest)
    (hentered : entryPoints p.workspace root config ≠ [])
    (htargets : (testTargets p.workspace ⟨root, manifest.name⟩ config excludes).run.value =
      .ok targets) :
    (checkDirectory p config root directory).run.value =
      .ok ((unreached (listing p.workspace directory excludes)
        (entryPoints p.workspace root config ++ targets)
        ((⟨root, manifest.name⟩ : Package).edges p.workspace
          (listing p.workspace directory excludes)).value).map
        fun f => violation (p.relativePath f)) := by
  have hread : (DartPackage.manifest p.workspace root).run.value = .ok manifest := hmanifest
  obtain ⟨entry, more, hentries⟩ := List.exists_cons_of_ne_nil hentered
  simp only [checkDirectory, RuleWork.value_bind, RuleWork.value_ofResult, hexcludes, hread,
    files_run excludes hdirectory, Except.bind]
  by_cases hempty : (listing p.workspace directory excludes).isEmpty = true
  · rw [if_pos hempty, List.isEmpty_iff.mp hempty]
    rfl
  · rw [if_neg hempty, hentries]
    simp only [RuleWork.value_bind, RuleWork.value_lift, RuleWork.value_debug,
      RuleWork.value_pure, htargets, Except.bind]

/-! ### Projects -/

/-- A Dart package with a valid configuration of the rule and an existing entry point. -/
structure Project (p : ProjectContext) (config : RuleConfig) where
  /-- The directory of the manifest. -/
  start : Path
  manifest : Manifest
  excludes : List Glob
  proper : p.workspace.tree.Proper
  start_found : DartPackage.root? p.workspace p.root = some start
  manifest_read :
    Manifest.ofFile p.workspace (start.folded.child Manifest.fileName) = .ok manifest
  excludes_read : PatternOption.excludes config = .ok excludes
  entered : entryPoints p.workspace start.folded config ≠ []

namespace Project

variable {p : ProjectContext} {config : RuleConfig} (j : Project p config)

def package : Package := ⟨j.start.folded, j.manifest.name⟩

def directory : Path :=
  (j.start.folded.join ⟨(config.text? "analyze_path").getD "lib"⟩).folded

/-- A Dart file below the directory that is looked at, not excluded. -/
def Analysed (f : Path) : Prop := Included p.workspace j.directory j.excludes f

/-- A test that no glob of `globs` leaves out. -/
def Test (globs : List Glob) (f : Path) : Prop :=
  Included p.workspace (j.start.folded.child "test") globs f

/-- Where chains begin: existing entry points and, when they count, the files tests name. -/
inductive Start (globs : List Glob) : Path → Prop
  | entryPoint {s} (hs : s ∈ (config.texts? "entry_points").getD ["lib/main.dart"])
      (hfile : p.workspace.isFile (j.start.folded.join ⟨s⟩).folded = true) :
      Start globs (j.start.folded.join ⟨s⟩).folded
  | test {t f} (hwanted : config.bool "include_test_imports" false = true)
      (ht : j.Test globs t) (hnames : j.package.Names p.workspace t f) : Start globs f

/-- Some chain of directives leads to the file. -/
def Reached (f : Path) : Prop :=
  ∃ start, j.Start [] start ∧ ReflTransGen (j.package.Names p.workspace) start f

/-- A chain leads to the file from an entry point or a test that is not excluded, and every
    file it goes on from is looked at. -/
def ReachedInside (f : Path) : Prop :=
  ∃ start, j.Start j.excludes start ∧
    ReflTransGen (fun a b => j.Analysed a ∧ j.package.Names p.workspace a b) start f

theorem reached_of_reachedInside {f : Path} (hinside : j.ReachedInside f) : j.Reached f := by
  obtain ⟨start, hstart, hchain⟩ := hinside
  refine ⟨start, ?_, ReflTransGen.mono (fun a b hstep => hstep.2) _ _ hchain⟩
  cases hstart with
  | entryPoint hs hfile => exact .entryPoint hs hfile
  | test hwanted ht hnames =>
    exact .test hwanted ⟨ht.directory_exists, ht.listed, rfl⟩ hnames

end Project

/-! ### An entry point elsewhere -/

/-- A package with its entry point outside the directory that is looked at. -/
def toolWorkspace : Workspace where
  tree := .directory [("w", .directory
    [("pubspec.yaml", .file (.text "name: app\n")),
     ("bin", .directory [("main.dart", .file (.text "import 'package:app/a.dart';\n"))]),
     ("lib", .directory [("a.dart", .file (.text ""))])])]
  workingNames := []
  home := none
  settingsDirectory := none

def toolContext : ProjectContext where
  root := ⟨"/w"⟩
  files := [⟨"/w/bin/main.dart"⟩, ⟨"/w/lib/a.dart"⟩]
  resolver := ⟨⟨"/w"⟩, none⟩
  workspace := toolWorkspace

def toolConfig : RuleConfig :=
  { RuleConfig.default with
    options := [("entry_points", .list [.text "bin/main.dart"]), ("exclude_patterns", .list [])] }

def toolProject : Project toolContext toolConfig where
  start := ⟨"/w"⟩
  manifest := ⟨some "app", [], []⟩
  excludes := []
  proper := by
    simp only [toolContext, toolWorkspace, FileTree.Proper, FileTree.ProperEntries]
    decide
  start_found := by decide +kernel
  manifest_read := by
    have hread : toolWorkspace.readText ⟨"/w/pubspec.yaml"⟩ = .ok "name: app\n" := by rfl
    exact Manifest.ofFile_eq_ok hread (by decide +kernel)
  excludes_read := by rfl
  entered := by decide +kernel

theorem tool_analysed : toolProject.Analysed ⟨"/w/lib/a.dart"⟩ where
  directory_exists := by decide +kernel
  listed := ⟨⟨"/w/lib/a.dart"⟩, by decide +kernel, by decide +kernel, by decide +kernel⟩
  not_left_out := by decide +kernel

theorem tool_main_names :
    toolProject.package.Names toolWorkspace ⟨"/w/bin/main.dart"⟩ ⟨"/w/lib/a.dart"⟩ := by
  have hread : toolWorkspace.readText ⟨"/w/bin/main.dart"⟩ =
      .ok "import 'package:app/a.dart';\n" := by rfl
  have hdirective : ⟨.imports, "package:app/a.dart", 1⟩ ∈
      Directive.ofText .dart "import 'package:app/a.dart';\n".toList := by decide +kernel
  have htarget : ((⟨"/w"⟩ : Path).child "lib" |>.join ⟨"a.dart"⟩).folded = ⟨"/w/lib/a.dart"⟩ := by
    decide +kernel
  refine ⟨_, hread, _, hdirective, ?_, by decide +kernel⟩
  rw [← htarget]
  exact .ownPackage rfl (by decide +kernel)

theorem tool_reached : toolProject.Reached ⟨"/w/lib/a.dart"⟩ := by
  have hentry : ((⟨"/w"⟩ : Path).folded.join ⟨"bin/main.dart"⟩).folded = ⟨"/w/bin/main.dart"⟩ := by
    decide +kernel
  refine ⟨⟨"/w/bin/main.dart"⟩, ?_, .single tool_main_names⟩
  rw [← hentry]
  exact .entryPoint (List.mem_singleton.mpr rfl) (by decide +kernel)

/-- The entry point is not looked at, so nothing goes on from it. -/
theorem tool_not_reachedInside : ¬ toolProject.ReachedInside ⟨"/w/lib/a.dart"⟩ := by
  rintro ⟨start, hstart, hchain⟩
  have hmain : start = ⟨"/w/bin/main.dart"⟩ := by
    cases hstart with
    | @entryPoint s hs hfile =>
      obtain rfl : s = "bin/main.dart" := List.mem_singleton.mp hs
      decide +kernel
    | test hwanted ht hnames => exact absurd hwanted (by decide)
  subst hmain
  rcases ReflTransGen.cases_head hchain with hsame | ⟨next, ⟨hanalysed, -⟩, -⟩
  · exact absurd hsame (by decide)
  · have hfiles := (mem_listing_iff hanalysed.directory_exists).mpr hanalysed
    revert hfiles
    decide +kernel

/-! ### The report -/

namespace Project

variable {p : ProjectContext} {config : RuleConfig} (j : Project p config)

def files : List Path :=
  if p.workspace.isDirectory j.directory then listing p.workspace j.directory j.excludes else []

theorem mem_files_iff {f : Path} : f ∈ j.files ↔ j.Analysed f := by
  rw [files]
  split
  · next hdirectory => exact mem_listing_iff hdirectory
  · next hdirectory =>
    constructor
    · intro hf
      simp at hf
    · intro hf
      exact absurd hf.directory_exists hdirectory

theorem files_increasing : Path.Increasing j.files := by
  rw [files]
  split
  · exact listing_increasing j.proper _ j.excludes
  · exact List.Pairwise.nil

theorem check_value : ∃ starts, (∀ f, f ∈ starts ↔ j.Start j.excludes f) ∧
    (check p config).run.value =
      .ok ((unreached j.files starts (j.package.edges p.workspace j.files).value).map
        fun f => violation (p.relativePath f)) := by
  obtain ⟨targets, htargets, hmem⟩ :=
    testTargets_run p.workspace j.package config j.excludes
  refine ⟨entryPoints p.workspace j.start.folded config ++ targets, fun f => ?_, ?_⟩
  · rw [List.mem_append, mem_entryPoints_iff, hmem]
    constructor
    · rintro (⟨s, hs, rfl, hfile⟩ | ⟨hwanted, t, ht, hnames⟩)
      · exact .entryPoint hs hfile
      · exact .test hwanted ht hnames
    · intro hstart
      cases hstart with
      | entryPoint hs hfile => exact .inl ⟨_, hs, rfl, hfile⟩
      | test hwanted ht hnames => exact .inr ⟨hwanted, _, ht, hnames⟩
  · have hcheck : check p config =
        if !p.workspace.isDirectory j.directory then do
          RuleWork.warn s!"Analyze path {j.directory.text} does not exist"
          return []
        else checkDirectory p config j.start.folded j.directory := by
      rw [check, j.start_found]
      rfl
    rw [hcheck, files]
    cases hdirectory : p.workspace.isDirectory j.directory with
    | false => rfl
    | true =>
      simp only [Bool.not_true, Bool.false_eq_true, if_false, if_true]
      exact checkDirectory_run hdirectory j.excludes_read j.manifest_read j.entered htargets

/-- The report: the files looked at that no chain inside reaches, in path order, each once. -/
theorem check_run : ∃ found : List Path,
    (check p config).run.value = .ok (found.map fun f => violation (p.relativePath f)) ∧
    Path.Increasing found ∧ ∀ f, f ∈ found ↔ j.Analysed f ∧ ¬ j.ReachedInside f := by
  obtain ⟨starts, hstarts, hvalue⟩ := j.check_value
  refine ⟨_, hvalue, unreached_increasing j.files_increasing _ _, fun f => ?_⟩
  have hedge : Reachable.Edge (j.package.edges p.workspace j.files).value =
      fun a b => j.Analysed a ∧ j.package.Names p.workspace a b := by
    funext a b
    rw [Package.edge_iff, j.mem_files_iff]
  rw [mem_unreached_iff, j.mem_files_iff, hedge]
  simp only [hstarts, ReachedInside]

/-- The report lists exactly the files looked at that nothing reaches, in path order, each once,
    precisely when whatever is looked at and reached is also reached inside. -/
theorem check_meets_iff : ∃ found : List Path,
    (check p config).run.value = .ok (found.map fun f => violation (p.relativePath f)) ∧
    Path.Increasing found ∧
    (∀ f, f ∈ found ↔ j.Analysed f ∧ ¬ j.ReachedInside f) ∧
    ((∀ f, f ∈ found ↔ j.Analysed f ∧ ¬ j.Reached f) ↔
      ∀ f, j.Analysed f → j.Reached f → j.ReachedInside f) := by
  obtain ⟨found, hvalue, hincreasing, hfound⟩ := j.check_run
  refine ⟨found, hvalue, hincreasing, hfound, ?_⟩
  constructor
  · intro hmeets f hf hreached
    by_cases hinside : j.ReachedInside f
    · exact hinside
    · exact absurd hreached ((hmeets f).mp ((hfound f).mpr ⟨hf, hinside⟩)).2
  · intro hinside f
    rw [hfound]
    constructor
    · rintro ⟨hf, hnot⟩
      exact ⟨hf, fun hreached => hnot (hinside f hf hreached)⟩
    · rintro ⟨hf, hnot⟩
      exact ⟨hf, fun hreached => hnot (j.reached_of_reachedInside hreached)⟩

end Project

theorem check_meets_iff_tool : ∃ found : List Path,
    (check toolContext toolConfig).run.value =
      .ok (found.map fun f => violation (toolContext.relativePath f)) ∧
    ¬ ∀ f, f ∈ found ↔ toolProject.Analysed f ∧ ¬ toolProject.Reached f := by
  obtain ⟨found, hvalue, -, -, hmeets⟩ := toolProject.check_meets_iff
  refine ⟨found, hvalue, fun hall => ?_⟩
  exact tool_not_reachedInside (hmeets.mp hall _ tool_analysed tool_reached)

/-- An imported file is reported as never imported. -/
theorem reports_imported_file :
    toolProject.Analysed ⟨"/w/lib/a.dart"⟩ ∧ toolProject.Reached ⟨"/w/lib/a.dart"⟩ ∧
      ∃ found, (check toolContext toolConfig).run.value = .ok found ∧
        violation "lib/a.dart" ∈ found := by
  refine ⟨tool_analysed, tool_reached, ?_⟩
  obtain ⟨found, hvalue, -, hfound⟩ := toolProject.check_run
  refine ⟨_, hvalue, ?_⟩
  have hpath : toolContext.relativePath ⟨"/w/lib/a.dart"⟩ = "lib/a.dart" := by decide +kernel
  rw [← hpath]
  exact List.mem_map_of_mem ((hfound _).mpr ⟨tool_analysed, tool_not_reachedInside⟩)

end SourceAudit.UnusedFiles
