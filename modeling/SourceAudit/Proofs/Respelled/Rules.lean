/-
  SourceAudit/Proofs/Respelled/Rules.lean
  =======================================
  **What the rules see of the spelling of the root.**

  Rules for files are shown a file by its path behind the root and by its name, so two
  contexts that agree there are `Alike` and give the same (`RuleCheck.overFiles_alike`).  Rules
  for the whole run fold their paths first.  Import boundaries and unused files therefore find
  the same in both runs, and only how that is shown is left to the root
  (`ImportBoundary.check_shown`, `UnusedFiles.check_shown`).  Unused packages show no paths of
  files: they are the same when the nearest manifest is (`UnusedPackages.check_respelled`).
-/
import SourceAudit.Proofs.FirstException
import SourceAudit.Proofs.Respelled.Walk
import SourceAudit.Proofs.Respelled.Shown
import SourceAudit.Proofs.SingleFile
import SourceAudit.Proofs.Unreached

namespace SourceAudit

open RuleWork (Agrees)
open SourceAudit.Path (SameBelow)

variable {w : Workspace} {p q : Path}

/-! ### Discovery -/

namespace Path

variable {names : List String} (hnames : ∀ n ∈ names, IsPlain n) (hne : names ≠ [])

include hnames hne

theorem extension?_below (p q : Path) :
    (p.below names).extension? = (q.below names).extension? := by
  rw [extension?, extension?, fileName?_below hnames hne, fileName?_below hnames hne]

theorem owns_below (p q : Path) (l : Language) :
    l.owns (p.below names) = l.owns (q.below names) := by
  rw [Language.owns, Language.owns, extension?_below hnames hne p q]

end Path

section

variable (h : Respelled w p q) (hproper : w.tree.Proper) (hdirectory : w.isDirectory p = true)

include h hproper hdirectory

theorem Discovery.discover_respelled (d : Discovery)
    (hunused : (w.userLayer d.respectGitignore).gitIgnore = []) :
    ∃ files files', (d.discover w p).value = .ok files ∧ (d.discover w q).value = .ok files' ∧
      SameBelow p q files files' := by
  refine ⟨_, _, discover_directory d hdirectory,
    discover_directory d (h.isDirectory_eq.symm.trans hdirectory), ?_⟩
  have hwalks := walk_respelled h hproper hunused hdirectory
  refine (hwalks.filter fun names hne hnames => ?_).filter fun names hne hnames => ?_
  · exact Path.owns_below hnames hne p q _
  · rw [excludes, excludes,
      Path.displayedFrom_below (Path.text_ne_empty_of_absolute h.absolute) hnames hne,
      Path.displayedFrom_below (Path.text_ne_empty_of_absolute h.absolute') hnames hne]

theorem DartPackage.listing_respelled (hunused : (w.userLayer true).gitIgnore = [])
    (globs : List Glob) : listing w p globs = listing w q globs := by
  have hwalks := Discovery.walk_respelled h hproper hunused hdirectory
  have howned := hwalks.filter fun names hne hnames => Path.owns_below hnames hne p q .dart
  have hfolded := howned.map_eq fun names _ hnames => h.folded_below_eq hnames
  rw [listing, listing, hfolded, h.folded]

end

/-! ### Rules for files -/

/-- Two files that rules for files cannot tell apart. -/
structure FileContext.Alike (f g : FileContext) : Prop where
  content : f.content = g.content
  shown : f.relativePath = g.relativePath
  extension : f.extension? = g.extension?
  projections : f.resolver.projections f.path = g.resolver.projections g.path

namespace FileContext.Alike

variable {f g : FileContext} (h : FileContext.Alike f g)

include h

theorem lineCount : f.lineCount = g.lineCount := by
  rw [FileContext.lineCount, FileContext.lineCount, h.content]

theorem thresholds (config : RuleConfig) (metric : Option String) :
    (f.thresholds config metric).value = (g.thresholds config metric).value :=
  Resolver.value_resolve_congr h.projections

theorem violations (config : RuleConfig) :
    (FileLength.violations f config).value = (FileLength.violations g config).value := by
  simp only [FileLength.violations, Logged.value_bind, Logged.value_pure, FileLength.violation?,
    h.thresholds, h.lineCount, h.shown]

theorem check (config : RuleConfig) (count : LineCount) (told : Metric.Told) (m : Metric) :
    (m.check f config count told).value = (m.check g config count told).value := by
  unfold Metric.check
  split
  · rfl
  · simp only [Logged.value_bind]
    split
    · rfl
    · simp only [Logged.value_bind, h.thresholds, Metric.violation, h.shown]

theorem checkAll (config : RuleConfig) (count : LineCount) (told : Metric.Told)
    (metrics : List Metric) :
    (Metric.checkAll f config count told metrics).value =
      (Metric.checkAll g config count told metrics).value := by
  induction metrics generalizing told with
  | nil => rfl
  | cons m rest ih =>
    simp only [Metric.checkAll, Logged.value_bind, Logged.value_pure, h.check, ih]

end FileContext.Alike

theorem RuleCheck.overFiles_alike {σ : Type} {config : RuleConfig}
    {ask : FileContext → RuleConfig → σ → Logged (RuleAnswer × σ)}
    (hask : ∀ f g, FileContext.Alike f g → ∀ memory,
      (ask f config memory).value = (ask g config memory).value)
    {files files' : List FileContext} (hfiles : List.Forall₂ FileContext.Alike files files')
    (memory : σ) : overFiles ask config memory files = overFiles ask config memory files' := by
  induction hfiles generalizing memory with
  | nil => rfl
  | cons hfirst _ ih =>
    rw [overFiles, overFiles, hask _ _ hfirst]
    simp only [ih]

/-- Rules for files cannot tell the spellings apart. -/
theorem Respelled.alike (h : Respelled w p q) {names : List String}
    (hnames : ∀ n ∈ names, Path.IsPlain n) (hne : names ≠ []) (content : String)
    (configDirectory : Option Path) :
    FileContext.Alike ⟨p.below names, content, ⟨p, configDirectory⟩⟩
      ⟨q.below names, content, ⟨q, configDirectory⟩⟩ where
  content := rfl
  shown := by
    simp only [FileContext.relativePath,
      Path.displayedFrom_below (Path.text_ne_empty_of_absolute h.absolute) hnames hne,
      Path.displayedFrom_below (Path.text_ne_empty_of_absolute h.absolute') hnames hne]
  extension := congrArg (Option.map Language.lowered) (Path.extension?_below hnames hne p q)
  projections := by
    simp only [Resolver.projections, Resolver.behind?, Path.join_below h.absolute,
      Path.join_below h.absolute', h.folded_below_eq hnames, h.folded,
      Path.fileName?_below hnames hne]

theorem Respelled.readable (h : Respelled w p q) {files files' : List Path}
    (hfiles : SameBelow p q files files') (configDirectory : Option Path) :
    List.Forall₂ FileContext.Alike (Run.readable w ⟨p, configDirectory⟩ files)
      (Run.readable w ⟨q, configDirectory⟩ files') := by
  obtain ⟨found, rfl, rfl, hfound⟩ := hfiles
  induction found with
  | nil => exact .nil
  | cons names rest ih =>
    obtain ⟨⟨hne, hnames⟩, hrest⟩ := List.forall_mem_cons.mp hfound
    have hmore := ih hrest
    have hread := h.readText_below_eq hnames hne
    unfold Run.readable at hmore ⊢
    simp only [List.map_cons, List.filterMap_cons, Path.join_below h.absolute,
      Path.join_below h.absolute', hread] at hmore ⊢
    cases w.readText (q.below names) with
    | error e => exact hmore
    | ok content => exact .cons (h.alike hnames hne content configDirectory) hmore

theorem Registered.alone_respelled {r : Registered Metric.Told} (hr : r.rule ∈ Rule.builtIn)
    (hperFile : r.rule.isPerFile = true) (config : RuleConfig) {files files' : List FileContext}
    (hfiles : List.Forall₂ FileContext.Alike files files') (run run' : ProjectContext) :
    r.alone config files run = r.alone config files' run' := by
  obtain ⟨rule, memory⟩ := r
  simp only [Rule.builtIn, List.mem_cons, List.not_mem_nil, or_false] at hr
  rcases hr with rfl | rfl | rfl | rfl | rfl
  · refine RuleCheck.overFiles_alike (fun f g hfg memory => ?_) hfiles memory
    simp only [Logged.value_bind, Logged.value_pure, hfg.violations]
  · refine RuleCheck.overFiles_alike (fun f g hfg memory => ?_) hfiles memory
    simp only [Logged.value_bind, Logged.value_pure, hfg.extension, hfg.content, hfg.checkAll]
  · cases hperFile
  · cases hperFile
  · cases hperFile

/-! ### Rules for whole runs -/

/-- Both answers are the same findings, shown behind the two roots. -/
def ShownAlike (rule : String) (p q : Path) (file : Path → Prop)
    (answer answer' : Option (List Violation)) : Prop :=
  ∃ found : Option (List Finding), answer = found.map (List.map (Finding.shown rule p)) ∧
    answer' = found.map (List.map (Finding.shown rule q)) ∧
    ∀ fs ∈ found, ∀ f ∈ fs, file f.file

namespace ImportBoundary

/-- What crosses the boundaries for a file. -/
def findingsIn (w : Workspace) (s : Setting) (file : Path) : List Finding :=
  match s.boundariesFor file, w.readText file with
  | [], _ => []
  | _, .error _ => []
  | boundaries, .ok content =>
    boundaries.flatMap fun b => ((s.importsOf file content).filter b.isCrossedBy).map fun i =>
      ⟨file, b.severity, fun shown => (b.violation shown i.1).message⟩

theorem file_of_mem_findingsIn {s : Setting} {file : Path} {f : Finding}
    (hf : f ∈ findingsIn w s file) : f.file = file := by
  unfold findingsIn at hf
  split at hf
  · cases hf
  · cases hf
  · obtain ⟨b, -, hb⟩ := List.mem_flatMap.mp hf
    obtain ⟨i, -, rfl⟩ := List.mem_map.mp hb
    rfl

theorem checkFile_shown (run : ProjectContext) (s : Setting) (file : Path) :
    (checkFile run s file).value =
      (findingsIn run.workspace s file).map (Finding.shown name run.root) := by
  unfold checkFile findingsIn
  cases s.boundariesFor file with
  | nil => rfl
  | cons b rest =>
    cases run.workspace.readText file with
    | error reason => rfl
    | ok content =>
      simp only [Logged.value_pure, violationsOf, List.map_flatMap, List.map_map]
      rfl

theorem checkFiles_shown (run : ProjectContext) (s : Setting) (files : List Path) :
    (checkFiles run s files).value =
      ((files.map Path.folded).flatMap (findingsIn run.workspace s)).map
        (Finding.shown name run.root) := by
  rw [checkFiles_value, List.flatMap_map, List.map_flatMap]
  simp only [checkFile_shown]

theorem settingOf_respelled (h : Respelled w p q) (files files' : List Path)
    (resolver resolver' : Resolver) (config : RuleConfig) :
    settingOf ⟨p, files, resolver, w⟩ config = settingOf ⟨q, files', resolver', w⟩ config := by
  unfold settingOf packageName
  simp only [h.folded_join_eq]

/-- Boundaries find the same in the files of both runs. -/
theorem check_shown (h : Respelled w p q) {files files' : List Path}
    (hfiles : SameBelow p q files files') (resolver resolver' : Resolver) (config : RuleConfig) :
    ShownAlike name p q
      (fun file => ∃ names, names ≠ [] ∧ (∀ n ∈ names, Path.IsPlain n) ∧
        file = (p.below names).folded)
      (check ⟨p, files, resolver, w⟩ config).run.value.toOption
      (check ⟨q, files', resolver', w⟩ config).run.value.toOption := by
  have hsame := settingOf_respelled h files files' resolver resolver' config
  have hfolded := hfiles.map_eq fun names _ hnames => h.folded_below_eq hnames
  let found (setting : Option Setting) : List Finding :=
    setting.elim [] fun s => (files.map Path.folded).flatMap (findingsIn w s)
  refine ⟨(settingOf ⟨p, files, resolver, w⟩ config).toOption.map found, ?_, ?_, ?_⟩
  · rw [check_value]
    cases settingOf ⟨p, files, resolver, w⟩ config with
    | error e => rfl
    | ok setting =>
      cases setting with
      | none => rfl
      | some s => exact congrArg some (checkFiles_shown _ s files)
  · rw [check_value, ← hsame]
    cases settingOf ⟨p, files, resolver, w⟩ config with
    | error e => rfl
    | ok setting =>
      cases setting with
      | none => rfl
      | some s =>
        have hshown := checkFiles_shown ⟨q, files', resolver', w⟩ s files'
        rw [← hfolded] at hshown
        exact congrArg some hshown
  · intro fs hfs f hf
    obtain ⟨setting, -, rfl⟩ := Option.map_eq_some_iff.mp hfs
    cases setting with
    | none => cases hf
    | some s =>
      obtain ⟨file, hfile, hf⟩ := List.mem_flatMap.mp hf
      obtain ⟨listed, hlisted, rfl⟩ := List.mem_map.mp hfile
      obtain ⟨found, rfl, -, hfound⟩ := hfiles
      obtain ⟨names, hnames, rfl⟩ := List.mem_map.mp hlisted
      obtain ⟨hne, hplain⟩ := hfound names hnames
      exact ⟨names, hne, hplain, file_of_mem_findingsIn hf⟩

end ImportBoundary

/-! #### Unused files -/

namespace UnusedFiles

/-- In a directory of a package the root says only how the findings are shown. -/
theorem checkDirectory_shown {directory : Path} (hdirectory : w.isDirectory directory = true)
    (config : RuleConfig) (package : Path) :
    ∃ found : Option (List Finding),
      (∀ run : ProjectContext, run.workspace = w →
        (checkDirectory run config package directory).run.value.toOption =
          found.map (List.map (Finding.shown name run.root))) ∧
      ∀ fs ∈ found, ∀ f ∈ fs, ∃ r : Path, f.file = r.folded := by
  let finding (f : Path) : Finding := ⟨f, .warning, fun shown => (violation shown).message⟩
  have hnothing : ∀ fs ∈ some ([] : List Finding), ∀ f ∈ fs, ∃ r : Path, f.file = r.folded := by
    simp
  cases hexcludes : PatternOption.excludes config with
  | error e =>
    refine ⟨none, ?_, by simp⟩
    rintro run rfl
    simp only [checkDirectory, RuleWork.value_bind, RuleWork.value_ofResult, hexcludes]
    rfl
  | ok excludes =>
    cases hmanifest : (DartPackage.manifest w package).run.value with
    | error e =>
      refine ⟨none, ?_, by simp⟩
      rintro run rfl
      simp only [checkDirectory, RuleWork.value_bind, RuleWork.value_ofResult, hexcludes,
        hmanifest, Except.bind]
      rfl
    | ok manifest =>
      cases hentries : entryPoints w package config with
      | nil =>
        refine ⟨some [], ?_, hnothing⟩
        rintro run rfl
        simp only [checkDirectory, RuleWork.value_bind, RuleWork.value_ofResult, hexcludes,
          hmanifest, DartPackage.files_run excludes hdirectory, hentries, Except.bind]
        cases (DartPackage.listing run.workspace directory excludes).isEmpty <;> rfl
      | cons entry more =>
        obtain ⟨targets, htargets, -⟩ :=
          testTargets_run w ⟨package, manifest.name⟩ config excludes
        refine ⟨some ((unreached (DartPackage.listing w directory excludes)
          (entry :: more ++ targets) ((⟨package, manifest.name⟩ : Package).edges w
            (DartPackage.listing w directory excludes)).value).map finding), ?_, ?_⟩
        · rintro run rfl
          have hentered : entryPoints run.workspace package config ≠ [] := by simp [hentries]
          rw [checkDirectory_run hdirectory hexcludes hmanifest hentered htargets, hentries,
            Option.map_some, List.map_map]
          rfl
        · intro fs hfs f hf
          cases hfs
          obtain ⟨file, hfile, rfl⟩ := List.mem_map.mp hf
          have hlisted := (mem_unreached_iff.mp hfile).1
          obtain ⟨listed, -, hfolded⟩ := List.mem_map.mp (List.mem_filter.mp hlisted).1
          exact ⟨listed, hfolded.symm⟩

/-- Unused files are the same in both runs, when the nearest manifest is. -/
theorem check_shown (hroot : SameRoot w p q) (files files' : List Path)
    (resolver resolver' : Resolver) (config : RuleConfig) :
    ShownAlike name p q (fun file => ∃ r : Path, file = r.folded)
      (check ⟨p, files, resolver, w⟩ config).run.value.toOption
      (check ⟨q, files', resolver', w⟩ config).run.value.toOption := by
  have hnothing : ∀ fs ∈ some ([] : List Finding), ∀ f ∈ fs, ∃ r : Path, f.file = r.folded := by
    simp
  unfold check
  unfold SameRoot at hroot
  generalize DartPackage.root? w p = first at hroot
  generalize DartPackage.root? w q = second at hroot
  cases hroot with
  | none => exact ⟨some [], rfl, rfl, hnothing⟩
  | some hsame =>
    dsimp only
    rw [hsame.folded]
    generalize hdirectory : w.isDirectory _ = exists?
    cases exists? with
    | false => exact ⟨some [], rfl, rfl, hnothing⟩
    | true =>
      obtain ⟨found, hfound, hfolded⟩ := checkDirectory_shown hdirectory config _
      exact ⟨found, hfound _ rfl, hfound _ rfl, hfolded⟩

end UnusedFiles

/-! #### Unused packages -/

theorem Manifest.ofFile_toOption (w : Workspace) (path : Path) :
    (Manifest.ofFile w path).toOption = (w.readText path).toOption.bind Manifest.ofText? := by
  unfold Manifest.ofFile
  cases w.readText path with
  | error reason => rfl
  | ok text =>
    simp only [Except.toOption, Option.bind_some]
    generalize Manifest.ofText? text = manifest
    cases manifest <;> rfl

namespace UnusedPackages

variable (hproper : w.tree.Proper) (hunused : (w.userLayer true).gitIgnore = [])

include hproper hunused

theorem usedBelow_respelled (h : Respelled w p q) (paths : List String) :
    Agrees (usedBelow w p paths) (usedBelow w q paths) := by
  induction paths with
  | nil => exact Agrees.refl _
  | cons path rest ih =>
    unfold usedBelow
    have hsame := h.isDirectory_join_eq ⟨path⟩
    dsimp only
    rw [hsame]
    split
    · next hdirectory =>
      have hfirst := hsame.trans hdirectory
      have hjoined : Respelled w (p.join ⟨path⟩) (q.join ⟨path⟩) := by
        refine h.join ?_
        rw [Workspace.isDirectory, Workspace.find?] at hfirst
        cases hresolve : w.resolve (p.join ⟨path⟩) with
        | error e => simp [hresolve] at hfirst
        | ok names => exact ⟨names, rfl⟩
      have hfiles : Agrees (DartPackage.files w (p.join ⟨path⟩) [])
          (DartPackage.files w (q.join ⟨path⟩) []) := by
        unfold Agrees
        rw [DartPackage.files_run [] hfirst, DartPackage.files_run [] hdirectory,
          DartPackage.listing_respelled hjoined hproper hfirst hunused]
      refine hfiles.bind fun found => (Agrees.refl _).bind fun used => ?_
      exact ih.bind fun more => Agrees.refl _
    · exact (Agrees.refl _).bind fun used => ih.bind fun more => Agrees.refl _

theorem checkPackage_respelled (h : Respelled w p q) (config : RuleConfig) :
    Agrees (checkPackage w config p) (checkPackage w config q) := by
  have hmanifest : Agrees (DartPackage.manifest w p) (DartPackage.manifest w q) := by
    apply Agrees.ofResult
    rw [Manifest.ofFile_toOption, Manifest.ofFile_toOption]
    exact congrArg (·.toOption.bind Manifest.ofText?) (h.readText_join_eq ⟨Manifest.fileName⟩)
  unfold checkPackage
  refine hmanifest.bind fun manifest => ?_
  refine (Agrees.refl _).bind fun severity => (Agrees.refl _).bind fun scanned => ?_
  refine (usedBelow_respelled hproper hunused h _).bind fun used => ?_
  dsimp only
  split
  · exact (usedBelow_respelled hproper hunused h _).bind fun usedDev => Agrees.refl _
  · exact Agrees.refl _

/-- Unused packages are the same in both runs, when the nearest manifest is. -/
theorem check_respelled (hroot : SameRoot w p q) (files files' : List Path)
    (resolver resolver' : Resolver) (config : RuleConfig) :
    Agrees (check ⟨p, files, resolver, w⟩ config) (check ⟨q, files', resolver', w⟩ config) := by
  unfold check
  unfold SameRoot at hroot
  generalize DartPackage.root? w p = first at hroot
  generalize DartPackage.root? w q = second at hroot
  cases hroot with
  | none => exact Agrees.refl _
  | some hsame => exact checkPackage_respelled hproper hunused hsame config

end UnusedPackages

end SourceAudit
