/-
  SourceAudit/Proofs/Respelled/Run.lean
  =====================================
  **A run from two spellings of its root.**

  Both runs find files with the same names below the two spellings
  (`Analyzer.discover_respelled`), and rules for files give the same for them.  The rules for
  the whole run show folded paths behind the root as it is written, and they look for the
  nearest manifest around it.

  * `violations_respelled`: the violations of both runs are the same when both spellings are
    direct, and when neither is and the directory holds a manifest; without a cap they are
    exactly when the rules for the whole run contribute the same.
  * `violations_differ_by_spelling`: that can fail.  From a direct spelling and one that is
    not, whatever import boundaries report is told under two paths.
-/
import Mathlib.Data.List.Nodup
import SourceAudit.Proofs.Respelled.Rules

namespace SourceAudit

open SourceAudit.Path (SameBelow)

theorem ShownAlike.eq {w : Workspace} {rule : String} {p q : Path} {file : Path → Prop}
    {answer answer' : Option (List Violation)} (h : Respelled w p q)
    (hdirect : p.IsDirect ↔ q.IsDirect) (hfile : ∀ r, file r → ∃ s : Path, r = s.folded)
    (hshown : ShownAlike rule p q file answer answer') : answer = answer' := by
  obtain ⟨found, rfl, rfl, hfound⟩ := hshown
  cases found with
  | none => rw [Option.map_none, Option.map_none]
  | some fs =>
    refine congrArg some (List.map_congr_left fun f hf => ?_)
    exact Finding.shown_eq h.folded hdirect (hfile _ (hfound fs rfl f hf)) rule

namespace Analyzer

def withRoot {σ : Type} (a : Analyzer σ) (root : Path) : Analyzer σ := { a with root := root }

/-- The rules for the whole run contribute the same from both spellings. -/
def WholeRunsAgree (a : Analyzer Metric.Told) (w : Workspace) (p q : Path) (language : Language) :
    Prop :=
  ∀ files files', ((a.withRoot p).discover w language).value = .ok files →
    ((a.withRoot q).discover w language).value = .ok files' →
    ∀ block ∈ a.planned, block.2.rule.isPerFile = false →
      (a.withRoot p).contributionAlone w files block =
        (a.withRoot q).contributionAlone w files' block

variable {a : Analyzer Metric.Told} {w : Workspace} {p q : Path} {language : Language}
  (h : Respelled w p q)

include h

/-! ### Discovery -/

theorem discover_respelled (hproper : w.tree.Proper) (hdirectory : w.isDirectory p = true)
    (hunused : (w.userLayer true).gitIgnore = []) :
    (∃ e, ((a.withRoot p).discover w language).value = .error e ∧
      ((a.withRoot q).discover w language).value = .error e) ∨
    ∃ files files', ((a.withRoot p).discover w language).value = .ok files ∧
      ((a.withRoot q).discover w language).value = .ok files' ∧ SameBelow p q files files' := by
  unfold discover
  cases hread : Discovery.read language a.config.exclude a.config.respectGitignore with
  | error e =>
    refine .inl ⟨e, ?_, ?_⟩
    · rw [withRoot, hread]
      rfl
    · rw [withRoot, hread]
      rfl
  | ok d =>
    have hlines : (w.userLayer d.respectGitignore).gitIgnore = [] := by
      cases d.respectGitignore with
      | true => exact hunused
      | false => rfl
    obtain ⟨files, files', hfirst, hsecond, hfiles⟩ :=
      Discovery.discover_respelled h hproper hdirectory d hlines
    refine .inr ⟨files, files', ?_, ?_, hfiles⟩
    · rw [withRoot, hread]
      exact hfirst
    · rw [withRoot, hread]
      exact hsecond

/-! ### What the rules contribute -/

omit h in
theorem contribution_congr {files files' : List Path} {block : RuleConfig × Registered Metric.Told}
    (houtput : (a.withRoot p).outputAlone w files block.1 block.2 =
      (a.withRoot q).outputAlone w files' block.1 block.2) :
    (a.withRoot p).contributionAlone w files block =
      (a.withRoot q).contributionAlone w files' block := by
  unfold contributionAlone
  rw [houtput]
  rfl

theorem contribution_perFile (hbuiltIn : a.HasBuiltIn) {files files' : List Path}
    (hfiles : SameBelow p q files files') {block : RuleConfig × Registered Metric.Told}
    (hblock : block ∈ a.planned) (hperFile : block.2.rule.isPerFile = true) :
    (a.withRoot p).contributionAlone w files block =
      (a.withRoot q).contributionAlone w files' block := by
  have hrule := hbuiltIn block.2 (mem_rules_of_planned hblock)
  refine contribution_congr ?_
  exact Registered.alone_respelled hrule hperFile block.1
    (h.readable hfiles a.config.sourceDirectory) _ _

/-- What import boundaries give in a run. -/
theorem boundaries_shown {files files' : List Path} (hfiles : SameBelow p q files files')
    (config : RuleConfig) (memory : Metric.Told) :
    ShownAlike ImportBoundary.name p q
      (fun file => ∃ names, names ≠ [] ∧ (∀ n ∈ names, Path.IsPlain n) ∧
        file = (p.below names).folded)
      ((a.withRoot p).outputAlone w files config ⟨ImportBoundary.rule, memory⟩)
      ((a.withRoot q).outputAlone w files' config ⟨ImportBoundary.rule, memory⟩) := by
  have hjoined {r : Path} (hr : r.isAbsolute = true) (found : List (List String)) :
      (found.map r.below).map r.join = found.map r.below := by
    rw [List.map_map]
    exact List.map_congr_left fun names _ => Path.join_below hr r names
  obtain ⟨found, rfl, rfl, hfound⟩ := hfiles
  have hshown := ImportBoundary.check_shown h ⟨found, rfl, rfl, hfound⟩ (a.withRoot p).resolver
    (a.withRoot q).resolver config
  rw [← hjoined h.absolute found, ← hjoined h.absolute' found] at hshown
  exact hshown

/-- With the same nearest manifest, and both spellings direct or both not, all rules
    contribute the same. -/
theorem contribution_respelled (hproper : w.tree.Proper)
    (hunused : (w.userLayer true).gitIgnore = []) (hbuiltIn : a.HasBuiltIn)
    (hdirect : p.IsDirect ↔ q.IsDirect) (hroot : SameRoot w p q) {files files' : List Path}
    (hfiles : SameBelow p q files files') {block : RuleConfig × Registered Metric.Told}
    (hblock : block ∈ a.planned) :
    (a.withRoot p).contributionAlone w files block =
      (a.withRoot q).contributionAlone w files' block := by
  cases hperFile : block.2.rule.isPerFile with
  | true => exact contribution_perFile h hbuiltIn hfiles hblock hperFile
  | false =>
    have hrule := hbuiltIn block.2 (mem_rules_of_planned hblock)
    refine contribution_congr ?_
    obtain ⟨config, rule, memory⟩ := block
    simp only [Rule.builtIn, List.mem_cons, List.not_mem_nil, or_false] at hrule
    rcases hrule with rfl | rfl | rfl | rfl | rfl
    · cases hperFile
    · cases hperFile
    · refine (boundaries_shown h hfiles config memory).eq h hdirect ?_
      rintro r ⟨names, -, -, rfl⟩
      exact ⟨_, rfl⟩
    · exact (UnusedFiles.check_shown hroot _ _ _ _ config).eq h hdirect fun _ hr => hr
    · exact UnusedPackages.check_respelled hproper hunused hroot _ _ _ _ config

/-! ### From the rules to the violations, and back -/

theorem violations_of_contributions (hproper : w.tree.Proper)
    (hdirectory : w.isDirectory p = true) (hunused : (w.userLayer true).gitIgnore = [])
    (hcontributions : ∀ files files', ((a.withRoot p).discover w language).value = .ok files →
      ((a.withRoot q).discover w language).value = .ok files' → SameBelow p q files files' →
      ∀ block ∈ a.planned, (a.withRoot p).contributionAlone w files block =
        (a.withRoot q).contributionAlone w files' block) :
    (a.withRoot p).violationsOf? w language = (a.withRoot q).violationsOf? w language := by
  rcases @discover_respelled a w p q language h hproper hdirectory hunused with
    ⟨e, hfirst, hsecond⟩ | ⟨files, files', hfirst, hsecond, hfiles⟩
  · rw [violationsOf?_of_error hfirst, violationsOf?_of_error hsecond]
  · rw [violationsOf?_of_ok hfirst, violationsOf?_of_ok hsecond]
    have hall := List.flatMap_congr (hcontributions files files' hfirst hsecond hfiles)
    exact congrArg (fun found => some (Violation.capped a.effectiveCap found).1) hall

omit h in
/-- Without a cap, nothing hides a difference between contributions. -/
theorem contribution_of_violations (hbuiltIn : a.HasBuiltIn)
    (hnames : (a.config.rules.map Prod.fst).Nodup)
    (hcap : ∀ limit, a.effectiveCap = some limit → limit ≤ 0)
    (hviolations : (a.withRoot p).violationsOf? w language =
      (a.withRoot q).violationsOf? w language) {files files' : List Path}
    (hfirst : ((a.withRoot p).discover w language).value = .ok files)
    (hsecond : ((a.withRoot q).discover w language).value = .ok files')
    {block : RuleConfig × Registered Metric.Told} (hblock : block ∈ a.planned) :
    (a.withRoot p).contributionAlone w files block =
      (a.withRoot q).contributionAlone w files' block := by
  have hbuiltIn' (r : Path) : (a.withRoot r).HasBuiltIn := hbuiltIn
  have hnodup (r : Path) :
      ((a.withRoot r).planned.map fun block => block.2.rule.name).Nodup :=
    planned_names_nodup hnames
  have hoff (r : Path) : ∀ limit, (a.withRoot r).effectiveCap = some limit → limit ≤ 0 := hcap
  rw [violationsOf?_of_ok hfirst, violationsOf?_of_ok hsecond, capped_of_off (hoff p),
    capped_of_off (hoff q), Option.some.injEq] at hviolations
  rw [← filter_contributions (hbuiltIn' p) files (hnodup p) hblock, hviolations,
    filter_contributions (hbuiltIn' q) files' (hnodup q) hblock]

/-- Import boundaries that contribute the same from a direct spelling and from one that is
    not contribute nothing. -/
theorem boundaries_eq_nil (hdirect : p.IsDirect) (hturned : ¬ q.IsDirect)
    {files files' : List Path} (hfiles : SameBelow p q files files') (config : RuleConfig)
    (memory : Metric.Told)
    (hsame : (a.withRoot p).contributionAlone w files (config, ⟨ImportBoundary.rule, memory⟩) =
      (a.withRoot q).contributionAlone w files' (config, ⟨ImportBoundary.rule, memory⟩)) :
    (a.withRoot p).contributionAlone w files (config, ⟨ImportBoundary.rule, memory⟩) = [] := by
  obtain ⟨found, hfirst, hsecond, hfound⟩ := boundaries_shown (a := a) h hfiles config memory
  unfold contributionAlone at hsame ⊢
  rw [hfirst] at hsame ⊢
  rw [hsecond] at hsame
  cases found with
  | none => rfl
  | some fs =>
    -- the level of the rule does not look at how a finding is shown
    let kept (f : Finding) : Bool :=
      decide ((a.levelOf config).minimum.rank ≤ f.severity.rank)
    have hkept (root : Path) :
        (fs.map (Finding.shown ImportBoundary.name root)).filter
          (fun v => (a.levelOf config).minimum.rank ≤ v.severity.rank) =
        (fs.filter kept).map (Finding.shown ImportBoundary.name root) := List.filter_map
    have hsame : (fs.filter kept).map (Finding.shown ImportBoundary.name p) =
        (fs.filter kept).map (Finding.shown ImportBoundary.name q) :=
      (hkept p).symm.trans (hsame.trans (hkept q))
    refine (hkept p).trans (List.map_eq_nil_iff.mpr ?_)
    rw [List.eq_nil_iff_forall_not_mem]
    intro f hf
    obtain ⟨names, hne, hnames, hfile⟩ := hfound fs rfl f (List.mem_filter.mp hf).1
    exact Finding.shown_ne h.absolute hdirect hturned hnames hne hfile _
      (List.map_inj_left.mp hsame f hf)

/-- Without a cap, the same violations from a direct spelling and from one that is not mean
    that import boundaries contribute nothing. -/
theorem boundaries_silent (hproper : w.tree.Proper) (hdirectory : w.isDirectory p = true)
    (hunused : (w.userLayer true).gitIgnore = []) (hbuiltIn : a.HasBuiltIn)
    (hnames : (a.config.rules.map Prod.fst).Nodup)
    (hcap : ∀ limit, a.effectiveCap = some limit → limit ≤ 0) (hdirect : p.IsDirect)
    (hturned : ¬ q.IsDirect)
    (hsame : (a.withRoot p).violationsOf? w language = (a.withRoot q).violationsOf? w language)
    {files : List Path} (hfirst : ((a.withRoot p).discover w language).value = .ok files)
    {block : RuleConfig × Registered Metric.Told} (hblock : block ∈ a.planned)
    (hname : block.2.rule.name = ImportBoundary.name) :
    (a.withRoot p).contributionAlone w files block = [] := by
  have hrule := hbuiltIn block.2 (mem_rules_of_planned hblock)
  rcases @discover_respelled a w p q language h hproper hdirectory hunused with
    ⟨e, herror, -⟩ | ⟨found, files', hfound, hsecond, hfiles⟩
  · rw [hfirst] at herror
    cases herror
  · obtain rfl : files = found := Except.ok.inj (hfirst.symm.trans hfound)
    have hcontribution :=
      contribution_of_violations hbuiltIn hnames hcap hsame hfirst hsecond hblock
    obtain ⟨config, rule, memory⟩ := block
    have hdistinct : (Rule.builtIn.map (·.name)).Nodup := by decide
    have hmine : ImportBoundary.rule ∈ Rule.builtIn := by simp [Rule.builtIn]
    obtain rfl : rule = ImportBoundary.rule :=
      List.inj_on_of_nodup_map hdistinct hrule hmine hname
    exact boundaries_eq_nil h hdirect hturned hfiles config memory hcontribution

/-- Direct spellings of one directory have the same components. -/
theorem sameComponents_of_direct (hp : p.IsDirect) (hq : q.IsDirect) : SameComponents w p q where
  absolute := h.absolute
  absolute' := h.absolute'
  components := by
    rw [Path.IsDirect] at hp hq
    rw [← hp, ← hq, h.folded]
  leads := by
    obtain ⟨names, hnames, -⟩ := h.resolved
    exact ⟨names, hnames⟩
  leads' := by
    obtain ⟨names, -, hnames⟩ := h.resolved
    exact ⟨names, hnames⟩

end Analyzer

/-! ### A package whose root is spelled through its library -/

/-- Below `lib/ui` a file imports one of `lib/data`. -/
def crossingWorkspace : Workspace where
  tree := .directory [("w", .directory
    [("lib", .directory
        [("data", .directory [("repo.dart", .file (.text ""))]),
         ("ui", .directory [("a.dart", .file (.text "import '../data/repo.dart';\n"))])]),
     ("pubspec.yaml", .file (.text "name: app\n"))])]
  workingNames := ["w"]
  home := none
  settingsDirectory := none

def crossingAnalyzer : Analyzer Metric.Told where
  root := ⟨"/w"⟩
  rules := Rule.builtIn.map fun rule => ⟨rule, []⟩
  config := { Config.default with
    rules := [(ImportBoundary.name, ImportBoundary.layeredConfig)] }
  level := none
  cap := none

/-- The import is reported once, for a file that is shown under some path. -/
def crossing (shown : String) : Violation where
  file := shown
  rule := ImportBoundary.name
  severity := .error
  message := "Architecture violation: " ++ shown ++
    " imports '../data/repo.dart' - Architecture violation (line 1)"
  magnitude := none

theorem crossing_proper : crossingWorkspace.tree.Proper := by
  simp only [crossingWorkspace, FileTree.Proper, FileTree.ProperEntries]
  decide

theorem crossing_respelled : Respelled crossingWorkspace ⟨"/w"⟩ ⟨"/w/lib/.."⟩ :=
  .of_resolve (by decide) (by decide) (by decide +kernel) (by decide +kernel)
    (by rfl) (by rfl)

theorem crossing_hasBuiltIn : crossingAnalyzer.HasBuiltIn := by
  intro r hr
  obtain ⟨rule, hrule, rfl⟩ := List.mem_map.mp hr
  exact hrule

theorem crossing_isDirect : (⟨"/w"⟩ : Path).IsDirect := by decide +kernel

theorem crossing_not_isDirect : ¬ (⟨"/w/lib/.."⟩ : Path).IsDirect := by decide +kernel

theorem crossing_violations {root : Path} (files : List Path) {found : List Violation}
    (hdirectory : crossingWorkspace.isDirectory root = true)
    (hwalk : (Discovery.walk crossingWorkspace true root).filter Language.dart.owns = files)
    (hfound : (crossingAnalyzer.withRoot root).contributionAlone crossingWorkspace files
      (ImportBoundary.layeredConfig, ⟨ImportBoundary.rule, []⟩) = found) :
    (crossingAnalyzer.withRoot root).violationsOf? crossingWorkspace .dart = some found := by
  have hread : (crossingAnalyzer.withRoot root).discover crossingWorkspace .dart =
      (⟨.dart, [], true⟩ : Discovery).discover crossingWorkspace root := by rfl
  have hfiles : ((crossingAnalyzer.withRoot root).discover crossingWorkspace .dart).value =
      .ok files := by
    rw [hread, Discovery.discover_directory _ hdirectory]
    simp [Discovery.candidates, Discovery.excludes, hwalk]
  have hplanned : (crossingAnalyzer.withRoot root).planned =
      [(ImportBoundary.layeredConfig, ⟨ImportBoundary.rule, []⟩)] := by rfl
  rw [Analyzer.violationsOf?_of_ok hfiles, hplanned, List.flatMap_singleton, hfound,
    Analyzer.capped_of_off (fun limit hlimit => by cases hlimit)]

/-- From the direct spelling the file is shown behind the root. -/
theorem crossing_from_direct :
    (crossingAnalyzer.withRoot ⟨"/w"⟩).violationsOf? crossingWorkspace .dart =
      some [crossing "lib/ui/a.dart"] := by
  have hcanonical : crossingWorkspace.canonical ⟨"/w"⟩ = .ok ⟨"/w"⟩ := by rfl
  refine crossing_violations [⟨"/w/lib/data/repo.dart"⟩, ⟨"/w/lib/ui/a.dart"⟩]
    (by decide +kernel) ?_ (by decide +kernel)
  rw [Discovery.walk_of_sorted (by rfl) hcanonical (by decide +kernel)]
  decide +kernel

/-- From the other spelling the whole path is shown. -/
theorem crossing_from_library :
    (crossingAnalyzer.withRoot ⟨"/w/lib/.."⟩).violationsOf? crossingWorkspace .dart =
      some [crossing "/w/lib/ui/a.dart"] := by
  have hcanonical : crossingWorkspace.canonical ⟨"/w/lib/.."⟩ = .ok ⟨"/w"⟩ := by rfl
  refine crossing_violations [⟨"/w/lib/../lib/data/repo.dart"⟩, ⟨"/w/lib/../lib/ui/a.dart"⟩]
    (by decide +kernel) ?_ (by decide +kernel)
  rw [Discovery.walk_of_sorted (by rfl) hcanonical (by decide +kernel)]
  decide +kernel

theorem crossing_differ :
    (crossingAnalyzer.withRoot ⟨"/w"⟩).violationsOf? crossingWorkspace .dart ≠
      (crossingAnalyzer.withRoot ⟨"/w/lib/.."⟩).violationsOf? crossingWorkspace .dart := by
  rw [crossing_from_direct, crossing_from_library]
  decide

/-! ### Both runs -/

namespace Analyzer

section

variable {a : Analyzer Metric.Told} {w : Workspace} {p q : Path} {language : Language}
  (h : Respelled w p q)

include h

/-- **Two spellings of the root.**  Without ignore lines of the user, the violations of the
    runs from two spellings of a directory are the same

    * when no spelling has a `..` to fold,
    * when both have and the directory holds a manifest,
    * when only rules for files run, and,
    * without a cap, exactly when the rules for the whole run contribute the same.

    From a spelling without and one with such a `..` they do so only if import boundaries
    contribute nothing. -/
theorem violations_respelled (hproper : w.tree.Proper) (hdirectory : w.isDirectory p = true)
    (hunused : (w.userLayer true).gitIgnore = []) (hbuiltIn : a.HasBuiltIn) :
    (p.IsDirect → q.IsDirect →
      (a.withRoot p).violationsOf? w language = (a.withRoot q).violationsOf? w language) ∧
    (¬ p.IsDirect → ¬ q.IsDirect → w.isFile (p.child Manifest.fileName) = true →
      (a.withRoot p).violationsOf? w language = (a.withRoot q).violationsOf? w language) ∧
    ((∀ block ∈ a.planned, block.2.rule.isPerFile = true) →
      (a.withRoot p).violationsOf? w language = (a.withRoot q).violationsOf? w language) ∧
    ((a.config.rules.map Prod.fst).Nodup →
      (∀ limit, a.effectiveCap = some limit → limit ≤ 0) →
      ((a.withRoot p).violationsOf? w language = (a.withRoot q).violationsOf? w language ↔
        a.WholeRunsAgree w p q language) ∧
      (p.IsDirect → ¬ q.IsDirect →
        (a.withRoot p).violationsOf? w language = (a.withRoot q).violationsOf? w language →
        ∀ files, ((a.withRoot p).discover w language).value = .ok files →
          ∀ block ∈ a.planned, block.2.rule.name = ImportBoundary.name →
            (a.withRoot p).contributionAlone w files block = [])) := by
  refine ⟨?_, ?_, ?_, ?_⟩
  · intro hp hq
    refine violations_of_contributions h hproper hdirectory hunused ?_
    intro files files' _ _ hfiles block hblock
    exact contribution_respelled h hproper hunused hbuiltIn (iff_of_true hp hq)
      (sameComponents_of_direct h hp hq).sameRoot hfiles hblock
  · intro hp hq hmanifest
    refine violations_of_contributions h hproper hdirectory hunused ?_
    intro files files' _ _ hfiles block hblock
    exact contribution_respelled h hproper hunused hbuiltIn (iff_of_false hp hq)
      (h.sameRoot hmanifest) hfiles hblock
  · intro hperFile
    refine violations_of_contributions h hproper hdirectory hunused ?_
    intro files files' _ _ hfiles block hblock
    exact contribution_perFile h hbuiltIn hfiles hblock (hperFile block hblock)
  · intro hnames hcap
    refine ⟨⟨?_, ?_⟩, ?_⟩
    · intro hsame files files' hfirst hsecond block hblock _
      exact contribution_of_violations hbuiltIn hnames hcap hsame hfirst hsecond hblock
    · intro hagree
      refine violations_of_contributions h hproper hdirectory hunused ?_
      intro files files' hfirst hsecond hfiles block hblock
      cases hperFile : block.2.rule.isPerFile with
      | true => exact contribution_perFile h hbuiltIn hfiles hblock hperFile
      | false => exact hagree files files' hfirst hsecond block hblock hperFile
    · intro hp hq hsame files hfirst block hblock hname
      exact boundaries_silent h hproper hdirectory hunused hbuiltIn hnames hcap hp hq hsame hfirst
        hblock hname

end

/-- Two direct spellings of the root agree, and so do two that are not; of the crossing itself
    the rules for the whole run see a difference. -/
theorem violations_respelled_crossing :
    crossingWorkspace.tree.Proper ∧ (crossingWorkspace.userLayer true).gitIgnore = [] ∧
    crossingAnalyzer.HasBuiltIn ∧ (crossingAnalyzer.config.rules.map Prod.fst).Nodup ∧
    (∀ limit, crossingAnalyzer.effectiveCap = some limit → limit ≤ 0) ∧
    Respelled crossingWorkspace ⟨"/w"⟩ ⟨"/w/./"⟩ ∧
    (crossingAnalyzer.withRoot ⟨"/w"⟩).violationsOf? crossingWorkspace .dart =
      (crossingAnalyzer.withRoot ⟨"/w/./"⟩).violationsOf? crossingWorkspace .dart ∧
    Respelled crossingWorkspace ⟨"/w/lib/.."⟩ ⟨"/w/lib/ui/../.."⟩ ∧
    (crossingAnalyzer.withRoot ⟨"/w/lib/.."⟩).violationsOf? crossingWorkspace .dart =
      (crossingAnalyzer.withRoot ⟨"/w/lib/ui/../.."⟩).violationsOf? crossingWorkspace .dart ∧
    Respelled crossingWorkspace ⟨"/w"⟩ ⟨"/w/lib/.."⟩ ∧
    ¬ crossingAnalyzer.WholeRunsAgree crossingWorkspace ⟨"/w"⟩ ⟨"/w/lib/.."⟩ .dart := by
  have hnames : (crossingAnalyzer.config.rules.map Prod.fst).Nodup := by decide
  have hcap : ∀ limit, crossingAnalyzer.effectiveCap = some limit → limit ≤ 0 := by
    intro limit hlimit
    cases hlimit
  have hdotted : Respelled crossingWorkspace ⟨"/w"⟩ ⟨"/w/./"⟩ :=
    .of_resolve (by decide) (by decide) (by decide +kernel) (by decide +kernel)
      (by rfl) (by rfl)
  have hturned : Respelled crossingWorkspace ⟨"/w/lib/.."⟩ ⟨"/w/lib/ui/../.."⟩ :=
    .of_resolve (by decide) (by decide) (by decide +kernel) (by decide +kernel)
      (by rfl) (by rfl)
  refine ⟨crossing_proper, rfl, crossing_hasBuiltIn, hnames, hcap, hdotted, ?_, hturned, ?_,
    crossing_respelled, ?_⟩
  · exact (violations_respelled hdotted crossing_proper (by decide +kernel) rfl
      crossing_hasBuiltIn).1 crossing_isDirect (by decide +kernel)
  · exact (violations_respelled hturned crossing_proper (by decide +kernel) rfl
      crossing_hasBuiltIn).2.1 crossing_not_isDirect (by decide +kernel) (by decide +kernel)
  · intro hagree
    refine crossing_differ (Iff.mpr ?_ hagree)
    exact ((violations_respelled crossing_respelled crossing_proper (by decide +kernel) rfl
      crossing_hasBuiltIn).2.2.2 hnames hcap).1

/-- One file is told under two paths. -/
theorem violations_differ_by_spelling : Respelled crossingWorkspace ⟨"/w"⟩ ⟨"/w/lib/.."⟩ ∧
    crossingAnalyzer.HasBuiltIn ∧
    (crossingAnalyzer.withRoot ⟨"/w"⟩).violationsOf? crossingWorkspace .dart =
      some [crossing "lib/ui/a.dart"] ∧
    (crossingAnalyzer.withRoot ⟨"/w/lib/.."⟩).violationsOf? crossingWorkspace .dart =
      some [crossing "/w/lib/ui/a.dart"] ∧
    (crossingAnalyzer.withRoot ⟨"/w"⟩).violationsOf? crossingWorkspace .dart ≠
      (crossingAnalyzer.withRoot ⟨"/w/lib/.."⟩).violationsOf? crossingWorkspace .dart :=
  ⟨crossing_respelled, crossing_hasBuiltIn, crossing_from_direct, crossing_from_library,
    crossing_differ⟩

end Analyzer

end SourceAudit
