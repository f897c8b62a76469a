/-
  SourceAudit/Proofs/Gitignore/Run.lean
  =====================================
  **A run over a language with the files of git switched off.**

  Such a run finds the same files in two workspaces that differ in `.gitignore` files
  only, and all rules that do not walk the tree themselves contribute the same
  (`contribution_agree`).  What is left are the rules for unused files and for unused
  packages.  Their walks look at `.gitignore` files whatever the configuration says.

  * `violations_agree_iff`: without a cap the violations of both runs are the same
    exactly when these two rules contribute the same, and they do when their walks list
    the same Dart files.
  * `violations_differ_by_gitignore`: that can fail.
-/
import SourceAudit.Proofs.Gitignore.Rules

namespace SourceAudit

open RuleWork (Agrees)

namespace Analyzer

/-! ### What a run is made with -/

section

variable {σ : Type}

theorem mem_rules_of_planned {a : Analyzer σ} {block : RuleConfig × Registered σ}
    (hblock : block ∈ a.planned) : block.2 ∈ a.rules := by
  obtain ⟨⟨name, config⟩, -, hfound⟩ := List.mem_filterMap.mp hblock
  obtain ⟨r, hr, rfl⟩ := Option.map_eq_some_iff.mp hfound
  exact List.mem_of_find?_eq_some hr

end

def walksItself (name : String) : Bool := name = UnusedFiles.name || name = UnusedPackages.name

variable (a : Analyzer Metric.Told)

/-- All rules are rules of the library. -/
def HasBuiltIn : Prop := ∀ r ∈ a.rules, r.rule ∈ Rule.builtIn

/-- The violations of a run over the files of a language; none when these are not found. -/
def violationsOf? (w : Workspace) (language : Language) : Option (List Violation) :=
  (a.runLanguage w language).value.toOption.map fun outcome => outcome.report.violations

/-- The rules that walk themselves contribute the same to the runs over a language. -/
def OwnWalksAgree (w w' : Workspace) (language : Language) : Prop :=
  ∀ files, (a.discover w language).value = .ok files →
    ∀ block ∈ a.planned, walksItself block.2.rule.name = true →
      a.contributionAlone w files block = a.contributionAlone w' files block

variable {a} {w w' : Workspace} {language : Language}

/-! ### The violations of a run -/

theorem violationsOf?_of_ok {files : List Path}
    (hfiles : (a.discover w language).value = .ok files) :
    a.violationsOf? w language = some (Violation.capped a.effectiveCap
      (a.planned.flatMap (a.contributionAlone w files))).1 := by
  have hreport := congrArg Prod.fst (a.report_run w files)
  unfold violationsOf? runLanguage
  rw [Logged.value_bind, hfiles]
  simp only [Logged.value_bind, Logged.value_pure, Except.toOption, Option.map_some]
  exact congrArg some hreport

theorem violationsOf?_of_error {e : DiscoveryError}
    (hfiles : (a.discover w language).value = .error e) : a.violationsOf? w language = none := by
  unfold violationsOf? runLanguage
  rw [Logged.value_bind, hfiles]
  rfl

theorem owns_of_mem_files {files : List Path} (hfiles : (a.discover w language).value = .ok files)
    {f : Path} (hf : f ∈ files) : language.owns f = true := by
  unfold discover at hfiles
  cases hread : Discovery.read language a.config.exclude a.config.respectGitignore with
  | error e =>
    rw [hread] at hfiles
    cases hfiles
  | ok d =>
    rw [hread] at hfiles
    rw [← (Discovery.read_settings hread).1]
    exact Discovery.owns_of_discover hfiles hf

theorem allOf_contribution (hbuiltIn : a.HasBuiltIn) (files : List Path)
    {block : RuleConfig × Registered Metric.Told} (hblock : block ∈ a.planned) :
    AllOf block.2.rule.name (a.contributionAlone w files block) := by
  unfold contributionAlone
  split
  · exact List.forall_mem_nil _
  · next found hfound =>
    intro v hv
    have hrule := hbuiltIn block.2 (mem_rules_of_planned hblock)
    exact Registered.allOf_alone hrule hfound v (List.mem_filter.mp hv).1

/-- The violations of a run with the name of one block are what that block contributes. -/
theorem filter_contributions (hbuiltIn : a.HasBuiltIn) (files : List Path)
    (hnodup : (a.planned.map fun block => block.2.rule.name).Nodup)
    {block : RuleConfig × Registered Metric.Told} (hblock : block ∈ a.planned) :
    (a.planned.flatMap (a.contributionAlone w files)).filter
      (fun v => v.rule = block.2.rule.name) = a.contributionAlone w files block := by
  refine filter_flatMap_of_nodup hnodup hblock ?_ ?_
  · intro v hv
    rw [allOf_contribution hbuiltIn files hblock v hv, decide_eq_true rfl]
  · intro other hother hname v hv
    rw [allOf_contribution hbuiltIn files hother v hv, decide_eq_false hname]

theorem capped_of_off {cap : Option Int} (hcap : ∀ limit, cap = some limit → limit ≤ 0)
    (found : List Violation) : (Violation.capped cap found).1 = found := by
  unfold Violation.capped
  split
  · rfl
  · next limit =>
    have hlimit := hcap limit rfl
    simp [hlimit]

variable (h : SameButGitignore w w')

include h

/-! ### Discovery -/

theorem discover_agree (hoff : a.config.respectGitignore = false) :
    (a.discover w language).value.toOption = (a.discover w' language).value.toOption := by
  unfold discover
  cases hread : Discovery.read language a.config.exclude a.config.respectGitignore with
  | error e => rfl
  | ok d =>
    have hgit : d.respectGitignore = false := (Discovery.read_settings hread).2.trans hoff
    exact h.discover_agree hgit a.root

/-! ### Rules that look at the files of the run -/

theorem outputAlone_agree {files : List Path} (hfiles : ∀ f ∈ files, language.owns f = true)
    {r : Registered Metric.Told} (hr : r.rule ∈ Rule.builtIn)
    (hwalks : walksItself r.rule.name = false) (config : RuleConfig) :
    a.outputAlone w files config r = a.outputAlone w' files config r := by
  obtain ⟨rule, memory⟩ := r
  have hreadable := h.readable_agree hfiles a.resolver
  simp only [Rule.builtIn, List.mem_cons, List.not_mem_nil, or_false] at hr
  rcases hr with rfl | rfl | rfl | rfl | rfl
  · unfold outputAlone
    rw [hreadable]
    rfl
  · unfold outputAlone
    rw [hreadable]
    rfl
  · refine ImportBoundary.check_agrees h ?_ config
    intro path hpath
    obtain ⟨f, hf, rfl⟩ := List.mem_map.mp hpath
    exact not_namesGitignore_folded (hfiles f hf)
  · cases hwalks
  · cases hwalks

theorem contribution_agree (hbuiltIn : a.HasBuiltIn) {files : List Path}
    (hfiles : ∀ f ∈ files, language.owns f = true) {block : RuleConfig × Registered Metric.Told}
    (hblock : block ∈ a.planned) (hwalks : walksItself block.2.rule.name = false) :
    a.contributionAlone w files block = a.contributionAlone w' files block := by
  have hrule := hbuiltIn block.2 (mem_rules_of_planned hblock)
  unfold contributionAlone
  rw [outputAlone_agree h hfiles hrule hwalks]

/-! ### Rules that walk themselves -/

/-- With the same Dart files and entry points these rules contribute the same. -/
theorem ownWalksAgree_of_walks (hbuiltIn : a.HasBuiltIn) (hwalks : SameDartWalks w w')
    (hentries : ∀ block ∈ a.planned, ∀ root,
      UnusedFiles.entryPoints w root block.1 = UnusedFiles.entryPoints w' root block.1) :
    a.OwnWalksAgree w w' language := by
  intro files hfiles block hblock hown
  have hrule := hbuiltIn block.2 (mem_rules_of_planned hblock)
  have hentries := hentries block hblock
  obtain ⟨config, rule, memory⟩ := block
  have houtput : a.outputAlone w files config ⟨rule, memory⟩ =
      a.outputAlone w' files config ⟨rule, memory⟩ := by
    simp only [Rule.builtIn, List.mem_cons, List.not_mem_nil, or_false] at hrule
    rcases hrule with rfl | rfl | rfl | rfl | rfl
    · cases hown
    · cases hown
    · cases hown
    · exact UnusedFiles.check_agrees h hwalks hentries
    · exact UnusedPackages.check_agrees h hwalks config
  unfold contributionAlone
  rw [houtput]

/-! ### From the walks to the violations, and back -/

theorem violations_of_ownWalksAgree (hbuiltIn : a.HasBuiltIn)
    (hoff : a.config.respectGitignore = false) (hown : a.OwnWalksAgree w w' language) :
    a.violationsOf? w language = a.violationsOf? w' language := by
  rcases ok_or_error_of_toOption (discover_agree h hoff) with ⟨files, hfirst, hsecond⟩ | hnone
  · rw [violationsOf?_of_ok hfirst, violationsOf?_of_ok hsecond]
    congr 3
    apply List.flatMap_congr
    intro block hblock
    cases hwalks : walksItself block.2.rule.name with
    | true => exact hown files hfirst block hblock hwalks
    | false =>
      exact contribution_agree h hbuiltIn (fun f hf => owns_of_mem_files hfirst hf) hblock hwalks
  · obtain ⟨e, e', hfirst, hsecond⟩ := hnone
    rw [violationsOf?_of_error hfirst, violationsOf?_of_error hsecond]

/-- Without a cap, nothing hides a difference between the rules that walk themselves. -/
theorem ownWalksAgree_of_violations (hbuiltIn : a.HasBuiltIn)
    (hoff : a.config.respectGitignore = false)
    (hnames : (a.config.rules.map Prod.fst).Nodup)
    (hcap : ∀ limit, a.effectiveCap = some limit → limit ≤ 0)
    (hviolations : a.violationsOf? w language = a.violationsOf? w' language) :
    a.OwnWalksAgree w w' language := by
  intro files hfiles block hblock _
  have hsecond := ok_of_toOption (discover_agree h hoff) hfiles
  rw [violationsOf?_of_ok hfiles, violationsOf?_of_ok hsecond, capped_of_off hcap,
    capped_of_off hcap, Option.some.injEq] at hviolations
  have hnodup := planned_names_nodup hnames
  rw [← filter_contributions hbuiltIn files hnodup hblock, hviolations,
    filter_contributions hbuiltIn files hnodup hblock]

end Analyzer

/-! ### A package whose files git ignores -/

/-- A package with a file that nothing imports, and more entries beside its manifest. -/
def orphanWorkspace (more : List (String × FileTree)) : Workspace where
  tree := .directory [("w", .directory (more ++
    [("lib", .directory [("main.dart", .file (.text "")), ("old.dart", .file (.text ""))]),
     ("pubspec.yaml", .file (.text "name: app\n"))]))]
  workingNames := []
  home := none
  settingsDirectory := none

/-- Git ignores every Dart file of the package. -/
def hidingWorkspace : Workspace := orphanWorkspace [(".gitignore", .file (.text "*.dart\n"))]

def plainWorkspace : Workspace := orphanWorkspace []

def orphanConfig : RuleConfig :=
  { RuleConfig.default with options := [("exclude_patterns", .list [])] }

def orphanAnalyzer : Analyzer Metric.Told where
  root := ⟨"/w"⟩
  rules := Rule.builtIn.map fun rule => ⟨rule, []⟩
  config := { Config.default with
    respectGitignore := false, rules := [(UnusedFiles.name, orphanConfig)] }
  level := none
  cap := none

theorem orphan_sameButGitignore : SameButGitignore hidingWorkspace plainWorkspace where
  proper := by
    simp only [hidingWorkspace, orphanWorkspace, List.cons_append, List.nil_append,
      FileTree.Proper, FileTree.ProperEntries]
    decide
  proper' := by
    simp only [plainWorkspace, orphanWorkspace, List.nil_append, FileTree.Proper,
      FileTree.ProperEntries]
    decide
  erased := by rfl

theorem orphan_hasBuiltIn : orphanAnalyzer.HasBuiltIn := by
  intro r hr
  obtain ⟨rule, hrule, rfl⟩ := List.mem_map.mp hr
  exact hrule

def orphanFiles : List Path := [⟨"/w/lib/main.dart"⟩, ⟨"/w/lib/old.dart"⟩]

def orphanRun (w : Workspace) : ProjectContext :=
  Run.wholeRun w orphanAnalyzer.resolver orphanFiles

theorem orphan_discover {w : Workspace} (hdirectory : w.isDirectory ⟨"/w"⟩ = true)
    (hwalk : (Discovery.walk w false ⟨"/w"⟩).filter Language.dart.owns = orphanFiles) :
    (orphanAnalyzer.discover w .dart).value = .ok orphanFiles := by
  have hdiscovery : orphanAnalyzer.discover w .dart =
      (⟨.dart, [], false⟩ : Discovery).discover w ⟨"/w"⟩ := by rfl
  rw [hdiscovery, Discovery.discover_directory _ hdirectory]
  simp [Discovery.candidates, Discovery.excludes, hwalk]

theorem orphan_discover_hiding :
    (orphanAnalyzer.discover hidingWorkspace .dart).value = .ok orphanFiles := by
  have hcanonical : hidingWorkspace.canonical ⟨"/w"⟩ = .ok ⟨"/w"⟩ := by rfl
  refine orphan_discover (by decide +kernel) ?_
  rw [Discovery.walk_of_sorted (by rfl) hcanonical (by decide +kernel)]
  decide +kernel

theorem orphan_discover_plain :
    (orphanAnalyzer.discover plainWorkspace .dart).value = .ok orphanFiles := by
  have hcanonical : plainWorkspace.canonical ⟨"/w"⟩ = .ok ⟨"/w"⟩ := by rfl
  refine orphan_discover (by decide +kernel) ?_
  rw [Discovery.walk_of_sorted (by rfl) hcanonical (by decide +kernel)]
  decide +kernel

theorem orphan_manifest_read {w : Workspace}
    (hread : w.readText ⟨"/w/pubspec.yaml"⟩ = .ok "name: app\n") :
    Manifest.ofFile w ((⟨"/w"⟩ : Path).folded.child Manifest.fileName) =
      .ok ⟨some "app", [], []⟩ :=
  Manifest.ofFile_eq_ok hread (by decide +kernel)

theorem orphan_entered {w : Workspace} (hentry : w.isFile ⟨"/w/lib/main.dart"⟩ = true) :
    UnusedFiles.entryPoints w (⟨"/w"⟩ : Path).folded orphanConfig ≠ [] := by
  have hmain : ((⟨"/w"⟩ : Path).folded.join ⟨"lib/main.dart"⟩).folded = ⟨"/w/lib/main.dart"⟩ := by
    decide +kernel
  have hmem : ⟨"/w/lib/main.dart"⟩ ∈ UnusedFiles.entryPoints w (⟨"/w"⟩ : Path).folded
      orphanConfig := by
    rw [UnusedFiles.mem_entryPoints_iff]
    exact ⟨"lib/main.dart", List.mem_singleton.mpr rfl, hmain, hentry⟩
  exact List.ne_nil_of_mem hmem

def orphanProject {w : Workspace} (hproper : w.tree.Proper)
    (hroot : DartPackage.root? w ⟨"/w"⟩ = some ⟨"/w"⟩)
    (hread : w.readText ⟨"/w/pubspec.yaml"⟩ = .ok "name: app\n")
    (hentry : w.isFile ⟨"/w/lib/main.dart"⟩ = true) :
    UnusedFiles.Project (orphanRun w) orphanConfig where
  start := ⟨"/w"⟩
  manifest := ⟨some "app", [], []⟩
  excludes := []
  proper := hproper
  start_found := hroot
  manifest_read := orphan_manifest_read hread
  excludes_read := by rfl
  entered := orphan_entered hentry

def hidingProject : UnusedFiles.Project (orphanRun hidingWorkspace) orphanConfig :=
  orphanProject orphan_sameButGitignore.proper (by decide +kernel) (by rfl) (by decide +kernel)

def plainProject : UnusedFiles.Project (orphanRun plainWorkspace) orphanConfig :=
  orphanProject orphan_sameButGitignore.proper' (by decide +kernel) (by rfl) (by decide +kernel)

/-- The rule for unused files is the only one that runs, and everything reaches its level. -/
theorem orphan_violations {w : Workspace} {found : List Violation}
    (hfiles : (orphanAnalyzer.discover w .dart).value = .ok orphanFiles)
    (hcheck : (UnusedFiles.check (orphanRun w) orphanConfig).run.value = .ok found) :
    orphanAnalyzer.violationsOf? w .dart = some found := by
  have hplanned : orphanAnalyzer.planned = [(orphanConfig, ⟨UnusedFiles.rule, []⟩)] := by rfl
  have houtput : orphanAnalyzer.outputAlone w orphanFiles orphanConfig ⟨UnusedFiles.rule, []⟩ =
      some found := congrArg Except.toOption hcheck
  have hlevel : (orphanAnalyzer.levelOf orphanConfig).minimum.rank = 0 := by decide
  rw [Analyzer.violationsOf?_of_ok hfiles, hplanned,
    Analyzer.capped_of_off (fun limit hlimit => by cases hlimit)]
  simp [Analyzer.contributionAlone, houtput, hlevel]

/-- Nothing is looked at, so nothing is reported. -/
theorem orphan_hidden : orphanAnalyzer.violationsOf? hidingWorkspace .dart = some [] := by
  obtain ⟨found, hcheck, -, hfound⟩ := hidingProject.check_run
  have hwalk : Discovery.walk hidingWorkspace true ⟨"/w/lib"⟩ = [] := by decide +kernel
  have hdirectory : hidingProject.directory = ⟨"/w/lib"⟩ := by decide +kernel
  have hnone : found = [] := by
    rw [List.eq_nil_iff_forall_not_mem]
    intro f hf
    obtain ⟨file, hfile, -, -⟩ := ((hfound f).mp hf).1.listed
    have hfile : file ∈ Discovery.walk hidingWorkspace true hidingProject.directory := hfile
    rw [hdirectory, hwalk] at hfile
    cases hfile
  subst hnone
  exact orphan_violations orphan_discover_hiding hcheck

theorem orphan_analysed : plainProject.Analysed ⟨"/w/lib/old.dart"⟩ where
  directory_exists := by decide +kernel
  listed := by
    have hcanonical : plainWorkspace.canonical ⟨"/w/lib"⟩ = .ok ⟨"/w/lib"⟩ := by rfl
    have hwalk : Discovery.walk plainWorkspace true ⟨"/w/lib"⟩ = orphanFiles := by
      rw [Discovery.walk_of_sorted (by rfl) hcanonical (by decide +kernel)]
      decide +kernel
    have hdirectory : plainProject.directory = ⟨"/w/lib"⟩ := by decide +kernel
    refine ⟨⟨"/w/lib/old.dart"⟩, ?_, by decide +kernel, by decide +kernel⟩
    rw [hdirectory]
    exact hwalk ▸ List.mem_cons_of_mem _ (List.mem_singleton.mpr rfl)
  not_left_out := by decide +kernel

/-- The one entry point has no directives. -/
theorem orphan_not_reachedInside : ¬ plainProject.ReachedInside ⟨"/w/lib/old.dart"⟩ := by
  rintro ⟨start, hstart, hchain⟩
  have hmain : start = ⟨"/w/lib/main.dart"⟩ := by
    cases hstart with
    | @entryPoint s hs hfile =>
      obtain rfl : s = "lib/main.dart" := List.mem_singleton.mp hs
      decide +kernel
    | test hwanted ht hnames => exact absurd hwanted (by decide)
  subst hmain
  rcases Relation.ReflTransGen.cases_head hchain with hsame | ⟨next, ⟨-, hnames⟩, -⟩
  · exact absurd hsame (by decide)
  · obtain ⟨text, hread, directive, hdirective, -⟩ := hnames
    have hempty : plainWorkspace.readText ⟨"/w/lib/main.dart"⟩ = .ok "" := by rfl
    obtain rfl : "" = text := Except.ok.inj (hempty.symm.trans hread)
    have hnothing : Directive.ofText .dart "".toList = [] := by decide +kernel
    rw [hnothing] at hdirective
    cases hdirective

theorem orphan_reported : ∃ found,
    orphanAnalyzer.violationsOf? plainWorkspace .dart = some found ∧ found ≠ [] := by
  obtain ⟨found, hcheck, -, hfound⟩ := plainProject.check_run
  refine ⟨_, orphan_violations orphan_discover_plain hcheck, ?_⟩
  have hmem := (hfound _).mpr ⟨orphan_analysed, orphan_not_reachedInside⟩
  exact List.ne_nil_of_mem (List.mem_map_of_mem hmem)

theorem orphan_violations_differ : orphanAnalyzer.violationsOf? hidingWorkspace .dart ≠
    orphanAnalyzer.violationsOf? plainWorkspace .dart := by
  obtain ⟨found, hplain, hsome⟩ := orphan_reported
  rw [orphan_hidden, hplain]
  exact fun hsame => hsome (Option.some.inj hsame).symm

/-! ### Both runs -/

namespace Analyzer

/-- The violations of two runs that differ in `.gitignore` files only are the same when the
    rules that walk themselves contribute the same; without a cap this is exactly when.  They
    do when none of them runs, and when they see the same Dart files and entry points. -/
theorem violations_agree_iff {a : Analyzer Metric.Told} {w w' : Workspace} {language : Language}
    (h : SameButGitignore w w') (hbuiltIn : a.HasBuiltIn)
    (hoff : a.config.respectGitignore = false) :
    (a.OwnWalksAgree w w' language → a.violationsOf? w language = a.violationsOf? w' language) ∧
    ((∀ block ∈ a.planned, walksItself block.2.rule.name = false) →
      a.violationsOf? w language = a.violationsOf? w' language) ∧
    ((a.config.rules.map Prod.fst).Nodup →
      (∀ limit, a.effectiveCap = some limit → limit ≤ 0) →
      (a.violationsOf? w language = a.violationsOf? w' language ↔
        a.OwnWalksAgree w w' language)) ∧
    (SameDartWalks w w' →
      (∀ block ∈ a.planned, ∀ root,
        UnusedFiles.entryPoints w root block.1 = UnusedFiles.entryPoints w' root block.1) →
      a.violationsOf? w language = a.violationsOf? w' language) := by
  refine ⟨violations_of_ownWalksAgree h hbuiltIn hoff, ?_, ?_, ?_⟩
  · intro hnone
    refine violations_of_ownWalksAgree h hbuiltIn hoff ?_
    intro files _ block hblock hown
    rw [hnone block hblock] at hown
    cases hown
  · intro hnames hcap
    exact ⟨ownWalksAgree_of_violations h hbuiltIn hoff hnames hcap,
      violations_of_ownWalksAgree h hbuiltIn hoff⟩
  · intro hwalks hentries
    exact violations_of_ownWalksAgree h hbuiltIn hoff
      (ownWalksAgree_of_walks h hbuiltIn hwalks hentries)

theorem violations_agree_iff_orphan : SameButGitignore hidingWorkspace plainWorkspace ∧
    orphanAnalyzer.HasBuiltIn ∧ orphanAnalyzer.config.respectGitignore = false ∧
    (orphanAnalyzer.config.rules.map Prod.fst).Nodup ∧
    (∀ limit, orphanAnalyzer.effectiveCap = some limit → limit ≤ 0) ∧
    ¬ orphanAnalyzer.OwnWalksAgree hidingWorkspace plainWorkspace .dart := by
  refine ⟨orphan_sameButGitignore, orphan_hasBuiltIn, rfl, by decide, ?_, ?_⟩
  · intro limit hlimit
    cases hlimit
  · intro hown
    obtain ⟨hagree, -⟩ := violations_agree_iff orphan_sameButGitignore orphan_hasBuiltIn rfl
    exact orphan_violations_differ (hagree hown)

/-- The files of git are switched off, and still a `.gitignore` file hides a violation. -/
theorem violations_differ_by_gitignore : SameButGitignore hidingWorkspace plainWorkspace ∧
    orphanAnalyzer.HasBuiltIn ∧ orphanAnalyzer.config.respectGitignore = false ∧
    orphanAnalyzer.violationsOf? hidingWorkspace .dart ≠
      orphanAnalyzer.violationsOf? plainWorkspace .dart :=
  ⟨orphan_sameButGitignore, orphan_hasBuiltIn, rfl, orphan_violations_differ⟩

end Analyzer

end SourceAudit
