/-
  SourceAudit/Proofs/SingleFile.lean
  ==================================
  **Analysing one file of a directory.**

  The limit on lines, the metrics and the boundaries of imports look at one file after the
  other: what they find in a file does not depend on the other files of the run
  (`Registered.goesFileByFile_of_looksAtFiles`), and it is told under the path of that file.
  A run on a file and a run on its directory have the same root and the same configuration
  (`CommandLine.prepare_file`), so these rules find in the first what the second tells about
  the file (`CommandLine.single_file_violations`).
-/
import SourceAudit.Proofs.Sessions
import SourceAudit.Proofs.PlainPaths
import SourceAudit.Proofs.Preparation
import SourceAudit.Proofs.ImportSpellings
import SourceAudit.Proofs.Ranking

namespace SourceAudit

variable {σ : Type}

/-! ### Rules that go file by file -/

/-- The rules that look at the files of a run and not at the tree around them. -/
def looksAtFiles (name : String) : Bool :=
  name = FileLength.name || name = Metric.name || name = ImportBoundary.name

/-- The path of a file of a run for display, as it is or folded. -/
def ShownAs (resolver : Resolver) (file : Path) (shown : String) : Prop :=
  shown = (resolver.base.join file).displayedFrom resolver.base ∨
    shown = (resolver.base.join file).folded.displayedFrom resolver.base

/-- What a rule finds in a run is what it finds in its files, one after the other; or else it
    fails in every run. -/
def Registered.GoesFileByFile (r : Registered σ) (config : RuleConfig) (w : Workspace)
    (resolver : Resolver) : Prop :=
  ∃ given : Option (Path → List Violation),
    (∀ files, r.alone config (Run.readable w resolver files) (Run.wholeRun w resolver files) =
      given.map files.flatMap) ∧
    ∀ find ∈ given, ∀ file, ∀ v ∈ find file, ShownAs resolver file v.file

theorem RuleCheck.overFiles_of_ok {ask : FileContext → RuleConfig → σ → Logged (RuleAnswer × σ)}
    {config : RuleConfig} {find : FileContext → List Violation}
    (hask : ∀ f memory, (ask f config memory).value.1 = .ok (find f)) (memory : σ)
    (files : List FileContext) :
    overFiles ask config memory files = some (files.flatMap find) := by
  induction files generalizing memory with
  | nil => rfl
  | cons f rest ih =>
    simp only [overFiles, hask, ih]
    rfl

theorem Run.readable_flatMap (w : Workspace) (resolver : Resolver)
    (find : FileContext → List Violation) (files : List Path) :
    (readable w resolver files).flatMap find =
      files.flatMap fun file => (readable w resolver [file]).flatMap find := by
  induction files with
  | nil => rfl
  | cons file rest ih =>
    rw [List.flatMap_cons, ← ih, ← List.flatMap_append, ← readable_append, List.singleton_append]

theorem Run.path_of_mem_readable {w : Workspace} {resolver : Resolver} {file : Path}
    {f : FileContext} (hf : f ∈ readable w resolver [file]) :
    f.path = resolver.base.join file ∧ f.resolver = resolver := by
  obtain ⟨other, hother, hf⟩ := List.mem_filterMap.mp hf
  obtain ⟨content, -, rfl⟩ := Option.map_eq_some_iff.mp hf
  rw [List.mem_singleton.mp hother]
  exact ⟨rfl, rfl⟩

/-- A rule for files that never fails and answers the same from every memory. -/
theorem Registered.goesFileByFile_of_ok {r : Registered σ} {config : RuleConfig}
    {ask : FileContext → RuleConfig → σ → Logged (RuleAnswer × σ)}
    (hcheck : r.rule.check = .perFile ask) {find : FileContext → List Violation}
    (hask : ∀ f memory, (ask f config memory).value.1 = .ok (find f))
    (hshown : ∀ f, ∀ v ∈ find f, v.file = f.relativePath) (w : Workspace) (resolver : Resolver) :
    r.GoesFileByFile config w resolver := by
  refine ⟨some fun file => (Run.readable w resolver [file]).flatMap find, ?_, ?_⟩
  · intro files
    simp only [alone, hcheck, RuleCheck.overFiles_of_ok hask, Option.map_some]
    rw [Run.readable_flatMap]
  · intro inFile hinFile file v hv
    obtain rfl := Option.some.inj hinFile
    obtain ⟨f, hf, hv⟩ := List.mem_flatMap.mp hv
    obtain ⟨hpath, hresolver⟩ := Run.path_of_mem_readable hf
    left
    rw [hshown f v hv, FileContext.relativePath, hpath, hresolver]

namespace ImportBoundary

theorem checkFiles_value (p : ProjectContext) (s : Setting) (files : List Path) :
    (checkFiles p s files).value = files.flatMap fun file => (checkFile p s file.folded).value := by
  induction files with
  | nil => rfl
  | cons file rest ih =>
    rw [checkFiles, Logged.value_bind, Logged.value_bind, Logged.value_pure, ih, List.flatMap_cons]

theorem file_of_mem_checkFile {p : ProjectContext} {s : Setting} {file : Path} {v : Violation}
    (hv : v ∈ (checkFile p s file).value) : v.file = p.relativePath file := by
  unfold checkFile at hv
  split at hv
  · cases hv
  · split at hv
    · cases hv
    · obtain ⟨b, -, hb⟩ := List.mem_flatMap.mp hv
      obtain ⟨i, -, rfl⟩ := List.mem_map.mp hb
      rfl

/-- What the files of a run are held against; nothing when there are no boundaries or no
    directory. -/
def settingOf (p : ProjectContext) (config : RuleConfig) : Except RuleError (Option Setting) :=
  match boundaries config with
  | .error e => .error e
  | .ok [] => .ok none
  | .ok found =>
    let directory := (p.root.join ⟨(config.text? "analyze_path").getD "."⟩).folded
    if p.workspace.isDirectory directory then do
      let excludes ← PatternOption.excludes config
      let package ← (packageName p config directory).run.value
      return some ⟨directory, found, excludes, package⟩
    else .ok none

theorem check_value (p : ProjectContext) (config : RuleConfig) :
    (check p config).run.value = (settingOf p config).map fun setting =>
      setting.elim [] fun s => (checkFiles p s p.files).value := by
  unfold check settingOf
  rw [RuleWork.value_bind, RuleWork.value_ofResult]
  cases boundaries config with
  | error e => rfl
  | ok found =>
    cases found with
    | nil => rfl
    | cons first rest =>
      simp only [Except.bind]
      let path : Path := ⟨(config.text? "analyze_path").getD "."⟩
      cases p.workspace.isDirectory (p.root.join path).folded with
      | false => rfl
      | true =>
        simp only [Bool.not_true, Bool.false_eq_true, if_false, if_true, RuleWork.value_bind,
          RuleWork.value_ofResult]
        cases PatternOption.excludes config with
        | error e => rfl
        | ok excludes =>
          simp only [Except.bind]
          generalize (packageName p config
            (p.root.join ⟨(config.text? "analyze_path").getD "."⟩).folded).run.value = package
          cases package <;> rfl

theorem checkFile_wholeRun (w : Workspace) (resolver : Resolver) (files : List Path) (s : Setting)
    (file : Path) : checkFile (Run.wholeRun w resolver files) s file =
      checkFile (Run.wholeRun w resolver []) s file := by
  unfold checkFile
  rfl

theorem settingOf_wholeRun (w : Workspace) (resolver : Resolver) (files : List Path)
    (config : RuleConfig) : settingOf (Run.wholeRun w resolver files) config =
      settingOf (Run.wholeRun w resolver []) config := by
  unfold settingOf packageName
  rfl

/-- The boundaries of imports are held against file after file. -/
theorem goesFileByFile (memory : σ) (config : RuleConfig) (w : Workspace) (resolver : Resolver) :
    Registered.GoesFileByFile ⟨ImportBoundary.rule, memory⟩ config w resolver := by
  refine ⟨(settingOf (Run.wholeRun w resolver []) config).toOption.map fun setting file =>
    setting.elim [] fun s => (checkFile (Run.wholeRun w resolver []) s
      (resolver.base.join file).folded).value, ?_, ?_⟩
  · intro files
    rw [ImportBoundary.rule, alone_projectWide, check_value, settingOf_wholeRun]
    cases settingOf (Run.wholeRun w resolver []) config with
    | error e => rfl
    | ok setting =>
      cases setting with
      | none => simp [Except.map, Except.toOption]
      | some s =>
        simp only [Except.map, Except.toOption, Option.map_some, Option.elim_some,
          checkFiles_value, checkFile_wholeRun]
        exact congrArg some (List.flatMap_map ..)
  · intro find hfind file v hv
    right
    obtain ⟨setting, -, rfl⟩ := Option.map_eq_some_iff.mp hfind
    cases setting with
    | none => cases hv
    | some s =>
      have hfound : v ∈ (checkFile (Run.wholeRun w resolver []) s
          (resolver.base.join file).folded).value := hv
      rw [file_of_mem_checkFile hfound]
      rfl

end ImportBoundary

/-- **File by file.**  What the rules for files and boundaries find in a file does not depend
    on the other files of a run. -/
theorem Registered.goesFileByFile_of_looksAtFiles {r : Registered Metric.Told}
    (hr : r.rule ∈ Rule.builtIn) (hlooks : looksAtFiles r.rule.name = true) (config : RuleConfig)
    (w : Workspace) (resolver : Resolver) : r.GoesFileByFile config w resolver := by
  obtain ⟨rule, memory⟩ := r
  simp only [Rule.builtIn, List.mem_cons, List.not_mem_nil, or_false] at hr
  rcases hr with rfl | rfl | rfl | rfl | rfl
  · let find (f : FileContext) : List Violation := (FileLength.violations f config).value
    have hshown (f : FileContext) : ∀ v ∈ find f, v.file = f.relativePath := by
      intro v hv
      exact (FileLength.of_mem_violations hv).1
    exact goesFileByFile_of_ok rfl (fun f memory => rfl) hshown w resolver
  · let find (f : FileContext) : List Violation :=
      let count := LineCount.ofText f.extension? f.content.toList
      (Metric.checkAll f config count [] Metric.all).value.1
    have hshown (f : FileContext) : ∀ v ∈ find f, v.file = f.relativePath := by
      intro v hv
      exact (Metric.of_mem_checkAll hv).1
    refine goesFileByFile_of_ok rfl (fun f memory => ?_) hshown w resolver
    exact congrArg Except.ok (Metric.checkAll_forgetful f config _ memory [] Metric.all)
  · exact ImportBoundary.goesFileByFile memory config w resolver
  · cases hlooks
  · cases hlooks

/-! ### One file of a run -/

namespace Analyzer

variable {a : Analyzer Metric.Told} {w : Workspace} {files : List Path} {file : Path}
  {shown : String}

theorem violations_of_off (hcap : ∀ limit, a.effectiveCap = some limit → limit ≤ 0)
    (w : Workspace) (files : List Path) :
    (a.run w files).value.report.violations = a.planned.flatMap (a.contributionAlone w files) :=
  (congrArg Prod.fst (a.report_run w files)).trans (capped_of_off hcap _)

section

variable (hbuiltIn : a.HasBuiltIn) (hfile : file ∈ files) (hnodup : files.Nodup)
  (hshown : ∀ s, ShownAs a.resolver file s → s = shown)
  (hothers : ∀ other ∈ files, other ≠ file → ¬ ShownAs a.resolver other shown)

include hbuiltIn hfile hnodup hshown hothers

/-- What a rule contributes to a run under the path of a file is what it contributes to a run
    over that file. -/
theorem contributionAlone_of_file {block : RuleConfig × Registered Metric.Told}
    (hblock : block ∈ a.planned) (hlooks : looksAtFiles block.2.rule.name = true) :
    (a.contributionAlone w files block).filter (fun v => v.file = shown) =
      a.contributionAlone w [file] block := by
  obtain ⟨given, halone, hgiven⟩ := Registered.goesFileByFile_of_looksAtFiles
    (hbuiltIn _ (mem_rules_of_planned hblock)) hlooks block.1 w a.resolver
  have houtput (files : List Path) :
      a.outputAlone w files block.1 block.2 = given.map files.flatMap := halone files
  unfold contributionAlone
  rw [houtput, houtput]
  cases given with
  | none => rfl
  | some find =>
    have hown : (files.flatMap find).filter (fun v => v.file = shown) = find file := by
      have hdistinct : (files.map id).Nodup := by rwa [List.map_id]
      refine filter_flatMap_of_nodup hdistinct hfile ?_ ?_
      · intro v hv
        exact decide_eq_true (hshown _ (hgiven find rfl file v hv))
      · intro other hother hne v hv
        refine decide_eq_false fun hsame => hothers other hother hne ?_
        exact hsame ▸ hgiven find rfl other v hv
    have hsingle : [file].flatMap find = find file := by simp
    simp only [Option.map_some]
    rw [List.filter_filter, hsingle, ← hown, List.filter_filter]
    congr 1
    funext v
    exact Bool.and_comm _ _

theorem violations_of_file (hcap : ∀ limit, a.effectiveCap = some limit → limit ≤ 0) :
    (a.run w [file]).value.report.violations.filter (fun v => looksAtFiles v.rule) =
      (a.run w files).value.report.violations.filter
        fun v => looksAtFiles v.rule && v.file = shown := by
  rw [violations_of_off hcap, violations_of_off hcap, List.filter_flatMap, List.filter_flatMap]
  apply List.flatMap_congr
  intro block hblock
  have halone := allOf_contribution (w := w) hbuiltIn [file] hblock
  have hall := allOf_contribution (w := w) hbuiltIn files hblock
  cases hlooks : looksAtFiles block.2.rule.name with
  | true =>
    rw [← contributionAlone_of_file hbuiltIn hfile hnodup hshown hothers hblock hlooks,
      List.filter_filter]
  | false =>
    rw [List.filter_eq_nil_iff.mpr, List.filter_eq_nil_iff.mpr]
    · intro v hv
      simp [hall v hv, hlooks]
    · intro v hv
      simp [halone v hv, hlooks]

end

end Analyzer

/-! ### The command on a file and on its directory -/

/-- The files found below a directory lie there, and none is found twice. -/
theorem Analyzer.lies_of_discover {a : Analyzer σ} {w : Workspace} (hproper : w.tree.Proper)
    {names : List String} {directory : List (String × FileTree)}
    (hat : w.tree.at? names = some (.directory directory)) (hroot : w.tree.isDirectory = true)
    (hbase : a.root = Path.ofNames names) {l : Language} {files : List Path}
    (hfiles : (a.discover w l).value = .ok files) :
    files.Nodup ∧ ∀ file ∈ files, l.owns file = true ∧ ∃ more content,
      w.tree.at? (names ++ more) = some (.file content) ∧ file = Path.ofNames (names ++ more) := by
  have hfind := Workspace.find?_ofNames hproper hroot hat
  have hdirectory : w.isDirectory (Path.ofNames names) = true := by
    rw [Workspace.isDirectory, hfind]
  unfold discover at hfiles
  cases hread : Discovery.read l a.config.exclude a.config.respectGitignore with
  | error e =>
    rw [hread] at hfiles
    cases hfiles
  | ok d =>
    obtain ⟨rfl, -⟩ := Discovery.read_settings hread
    simp only [hread, hbase] at hfiles
    rw [Discovery.discover_directory d hdirectory] at hfiles
    obtain rfl := Except.ok.inj hfiles
    have hincreasing := Discovery.walk_increasing hproper d.respectGitignore (Path.ofNames names)
    refine ⟨?_, ?_⟩
    · refine List.Pairwise.imp ?_ ((hincreasing.filter _).filter _)
      rintro p q hpq rfl
      exact hpq.2 rfl
    · intro file hfile
      obtain ⟨hwalk, howns⟩ := List.mem_filter.mp (List.mem_filter.mp hfile).1
      exact ⟨howns, Discovery.ofNames_of_mem_walk hproper hroot hat hwalk⟩

/-- A single name is shown for nothing but the path of that name. -/
theorem Path.eq_singleton_of_slashText {names : List String} {name : String}
    (hnames : ∀ n ∈ names, IsPlain n) (hname : IsPlain name)
    (hshown : (ofSegments names).slashText = name) : names = [name] := by
  have hchars : Text.forwardSlashes (ofSegments names).text.toList = name.toList := by
    rw [← hshown, slashText, String.toList_ofList]
  have hback : '\\' ∉ (ofSegments names).text.toList := by
    intro hmem
    refine hname.2.2 ?_
    rw [← hchars]
    exact List.mem_map.mpr ⟨'\\', hmem, rfl⟩
  have htext : ofSegments names = ⟨name⟩ := by
    rw [Text.forwardSlashes_eq_self_iff.mpr hback, String.toList_inj] at hchars
    rw [← hchars]
  have hcomponents := (IsPlain.counted hnames).components_eq
  have hone : ∀ n ∈ [name], IsPlain n := by simpa using hname
  have hsingle := (IsPlain.counted hone).components_eq
  have hwritten : ofSegments [name] = ⟨name⟩ := by
    simp [ofSegments, Text.joined]
  rw [htext, ← hwritten, hsingle] at hcomponents
  have htexts := congrArg (List.map Component.text) hcomponents
  rw [map_text_component, map_text_component] at htexts
  exact htexts.symm

theorem Path.slashText_singleton {name : String} (hback : '\\' ∉ name.toList) :
    (ofSegments [name]).slashText = name := by
  simp [slashText, ofSegments, Text.joined, Text.forwardSlashes_eq_self_iff.mpr hback]

namespace CommandLine

variable {w : Workspace} {s : CheckSettings} {a : Analyzer Metric.Told} {files : List Path}

theorem ok_of_mapError {ε ε' α : Type} {x : Except ε α} {tell : ε → ε'} {found : α}
    (hx : x.mapError tell = .ok found) : x = .ok found := by
  cases x with
  | error e => cases hx
  | ok b =>
    cases hx
    rfl

theorem read_of_discover {l : Language} (hfiles : (a.discover w l).value = .ok files) :
    ∃ d, Discovery.read l a.config.exclude a.config.respectGitignore = .ok d := by
  unfold Analyzer.discover at hfiles
  cases hread : Discovery.read l a.config.exclude a.config.respectGitignore with
  | error e =>
    rw [hread] at hfiles
    cases hfiles
  | ok d => exact ⟨d, rfl⟩

theorem filesFor_of_directory {target : Path} (hdirectory : w.isFile target = false)
    (hfiles : (a.discover w s.language).value = .ok files) : filesFor w s target a = .ok files := by
  rw [filesFor, if_neg (by simp [hdirectory]), hfiles]
  rfl

theorem fileAlone_of_owned {target : Path} {content : Content} {d : Discovery}
    (hread : Discovery.read s.language a.config.exclude a.config.respectGitignore = .ok d)
    (hfile : w.find? target = some (.file content)) (howns : s.language.owns target = true) :
    fileAlone w s target a = .ok [target] := by
  rw [← (Discovery.read_settings hread).1] at howns
  simp only [fileAlone, hread, Discovery.discover, hfile, Logged.value_pure, howns, if_true]
  rfl

/-! #### A file and the directory around it -/

section

variable {file directory : Path} (hfile : w.isFile file = true)
  (hdirectory : w.isFile directory = false) (hparent : file.parent? = some directory)

include hfile hdirectory hparent

theorem analyzerFor_parent (path : Path) (config : Config) :
    analyzerFor w { s with path := path } file config = analyzerFor w s directory config := by
  simp [analyzerFor, hfile, hdirectory, hparent]

theorem ConfigSource.find_parent (rules : Option Path) :
    ConfigSource.find w file rules = ConfigSource.find w directory rules := by
  have hproject : ConfigSource.projectDirectory w file =
      ConfigSource.projectDirectory w directory := by
    simp [ConfigSource.projectDirectory, hfile, hdirectory, hparent]
  unfold ConfigSource.find ConfigSource.projectCandidates ConfigSource.searchDirectories
  rw [hproject]

end

section

variable {names : List String} {f : String} {path : Path} (hproper : w.tree.Proper)
  (hprepared : prepare w s = .ok (a, files)) (hdirectory : w.resolve s.path = .ok names)
  (hpath : w.resolve path = .ok (names ++ [f]))
  (hfound : (Path.ofNames names).child f ∈ files)

include hproper hprepared hdirectory hpath hfound

/-- A run on a file has the analyzer of a run on its directory that finds the file. -/
theorem prepare_file : a.root = Path.ofNames names ∧ (∀ n ∈ names ++ [f], Path.IsPlain n) ∧
    (files.Nodup ∧ ∀ file ∈ files, ∃ more, (∀ n ∈ more, Path.IsPlain n) ∧
      file = Path.ofNames (names ++ more)) ∧
    prepare w { s with path := path } = .ok (a, [Path.ofNames (names ++ [f])]) := by
  obtain ⟨hroot, tree, hat⟩ := Workspace.exists_of_resolve hpath
  have hall := hproper.plain hat
  have hnames : ∀ n ∈ names, Path.IsPlain n := fun n hn => hall n (List.mem_append_left _ hn)
  have hf : Path.IsPlain f := hall f (by simp)
  have haround := hat
  rw [FileTree.at?_append, Option.bind_eq_some_iff] at haround
  obtain ⟨directory, hatDirectory, hinside⟩ := haround
  obtain ⟨entries, rfl, -⟩ := FileTree.directory_of_entry hinside
  have hnotFile : w.isFile (Path.ofNames names) = false := by
    rw [Workspace.isFile, Workspace.find?_ofNames hproper hroot hatDirectory]
  obtain ⟨target, config, hcanonical, hconfig, rfl, hfiles⟩ := prepare_steps hprepared
  rw [Workspace.canonical, hdirectory] at hcanonical
  obtain rfl : Path.ofNames names = target := Except.ok.inj hcanonical
  have hbase : (analyzerFor w s (Path.ofNames names) config).root = Path.ofNames names := by
    rw [analyzerFor, if_neg (by simp [hnotFile]), Analyzer.ofRoot, Path.join_ofNames hnames]
  rw [Path.child_ofNames hnames hf] at hfound
  -- the walk that finds the path comes to a file
  have hdiscovered : ((analyzerFor w s (Path.ofNames names) config).discover w s.language).value =
      .ok files := by
    unfold filesFor at hfiles
    rw [if_neg (by simp [hnotFile])] at hfiles
    exact ok_of_mapError hfiles
  obtain ⟨hnodup, hlies⟩ := Analyzer.lies_of_discover hproper hatDirectory hroot hbase hdiscovered
  obtain ⟨howns, more, content, hcontent, hsame⟩ := hlies _ hfound
  rw [← Path.ofNames_inj hall (hproper.plain hcontent) hsame] at hcontent
  have hfile : w.find? (Path.ofNames (names ++ [f])) = some (.file content) :=
    Workspace.find?_ofNames hproper hroot hcontent
  have hisFile : w.isFile (Path.ofNames (names ++ [f])) = true := by
    rw [Workspace.isFile, hfile]
  have hparent := Path.parent?_ofNames hnames hf
  have hanalyzer : analyzerFor w { s with path := path } (Path.ofNames (names ++ [f])) config =
      analyzerFor w s (Path.ofNames names) config :=
    analyzerFor_parent hisFile hnotFile hparent path config
  refine ⟨hbase, hall, ⟨hnodup, ?_⟩, ?_⟩
  · intro file hfile
    obtain ⟨-, more, content, hcontent, rfl⟩ := hlies file hfile
    exact ⟨more, fun n hn => hproper.plain hcontent n (List.mem_append_right _ hn), rfl⟩
  rw [← hanalyzer]
  apply prepare_of_steps
  · exact congrArg (Except.map Path.ofNames) hpath
  · rw [configFor, ConfigSource.find_parent hisFile hnotFile hparent]
    exact hconfig
  · rw [filesFor, if_pos hisFile, hanalyzer]
    obtain ⟨d, hread⟩ := read_of_discover hdiscovered
    exact fileAlone_of_owned hread hfile howns

end

/-! ### Two files that are too long -/

/-- Two files with the same text, next to a configuration. -/
def twinWorkspaceWith (settings : String) : Workspace where
  tree := .directory [("w", .directory
    [("a.dart", .file (.text "a\nb\nc\n")), ("b.dart", .file (.text "a\nb\nc\n")),
      ("code-analyzer.toml", .file (.text settings))])]
  workingNames := ["w"]
  home := none
  settingsDirectory := none

def twinWorkspace : Workspace :=
  twinWorkspaceWith "[rules.max_lines_per_file]\nenabled = true\nerror = 2\n"

def twinSettings : CheckSettings := ⟨.dart, ⟨"."⟩, none, none, none, .normal, .text, none⟩

def twinConfig : Config := (configFor twinWorkspace twinSettings ⟨"/w"⟩).toOption.getD .default

def twinFiles : List Path := [⟨"/w/a.dart"⟩, ⟨"/w/b.dart"⟩]

theorem configFor_getD {target : Path}
    (hread : (configFor w s target).toOption.isSome = true) :
    configFor w s target = .ok ((configFor w s target).toOption.getD .default) := by
  cases hconfig : configFor w s target with
  | error failure =>
    rw [hconfig] at hread
    cases hread
  | ok config => rfl

theorem twin_discover (settings : String) {config : Config} (hexclude : config.exclude = [])
    (hrespect : config.respectGitignore = true) :
    ((analyzerFor (twinWorkspaceWith settings) twinSettings ⟨"/w"⟩ config).discover
      (twinWorkspaceWith settings) .dart).value = .ok twinFiles := by
  have hsettings : (Discovery.read .dart [] true).toOption =
      (.ok ⟨.dart, [], true⟩ : Except DiscoveryError Discovery).toOption := by decide +kernel
  have hread := ok_of_toOption hsettings.symm rfl
  have hnotFile : (twinWorkspaceWith settings).isFile ⟨"/w"⟩ = false := by rfl
  have hjoin : (Path.ofNames ["w"]).join ⟨"/w"⟩ = ⟨"/w"⟩ := by decide +kernel
  have hroot : (analyzerFor (twinWorkspaceWith settings) twinSettings ⟨"/w"⟩ config).root =
      ⟨"/w"⟩ := by
    rw [analyzerFor, if_neg (by simp [hnotFile])]
    exact hjoin
  have hcanonical : (twinWorkspaceWith settings).canonical ⟨"/w"⟩ = .ok ⟨"/w"⟩ := by rfl
  have hwalk : (Discovery.walk (twinWorkspaceWith settings) true ⟨"/w"⟩).filter
      Language.dart.owns = twinFiles := by
    rw [Discovery.walk_of_sorted (by rfl) hcanonical (of_decide_eq_true (by rfl))]
    rfl
  unfold Analyzer.discover
  rw [config_analyzerFor, hexclude, hrespect, hread, hroot]
  rw [Discovery.discover_directory _ (by rfl)]
  simp [Discovery.candidates, Discovery.excludes, hwalk]

theorem twin_prepared {settings : String} {config : Config}
    (hconfig : configFor (twinWorkspaceWith settings) twinSettings ⟨"/w"⟩ = .ok config)
    (hexclude : config.exclude = []) (hrespect : config.respectGitignore = true) :
    prepare (twinWorkspaceWith settings) twinSettings =
      .ok (analyzerFor (twinWorkspaceWith settings) twinSettings ⟨"/w"⟩ config, twinFiles) := by
  refine prepare_of_steps (by rfl) hconfig ?_
  exact filesFor_of_directory (by rfl) (twin_discover settings hexclude hrespect)

/-- The same two files, and a cap in the configuration. -/
def cappedTwins : Workspace :=
  twinWorkspaceWith
    "max_errors = 1\n[rules.max_lines_per_file]\nenabled = true\nerror = 2\n"

def cappedConfig : Config := (configFor cappedTwins twinSettings ⟨"/w"⟩).toOption.getD .default

def cappedAnalyzer : Analyzer Metric.Told :=
  analyzerFor cappedTwins twinSettings ⟨"/w"⟩ cappedConfig

theorem cappedTwins_prepared : prepare cappedTwins twinSettings = .ok (cappedAnalyzer, twinFiles) :=
  twin_prepared (configFor_getD (by decide +kernel)) (by decide +kernel) (by decide +kernel)

def tooLong (file : String) : Violation :=
  ⟨file, FileLength.name, .error, "File has 3 lines (limit: 2)", some (.ofNat 3)⟩

/-- Both files are too long, and the cap leaves the later one. -/
theorem cappedAnalyzer_violations :
    (cappedAnalyzer.run cappedTwins twinFiles).value.report.violations = [tooLong "b.dart"] := by
  have hcap : cappedAnalyzer.effectiveCap = some 1 := by decide +kernel
  have hfound : cappedAnalyzer.planned.flatMap
      (cappedAnalyzer.contributionAlone cappedTwins twinFiles) =
        [tooLong "a.dart", tooLong "b.dart"] := by decide +kernel
  have hleft : (Violation.capped (some 1) [tooLong "a.dart", tooLong "b.dart"]).1 =
      [tooLong "b.dart"] := by
    rw [Violation.capped_zipIdx]
    decide +kernel
  have hreport := congrArg Prod.fst (cappedAnalyzer.report_run cappedTwins twinFiles)
  rw [hcap, hfound, hleft] at hreport
  dsimp only at hreport
  exact hreport

end CommandLine

end SourceAudit
