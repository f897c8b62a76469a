/-
  SourceAudit/Proofs/UnusedPackages.lean
  ======================================
  **Which packages are reported as unused.**

  A file names a package when it can be read and the URI of a statement in it leads into the
  package (`UnusedPackages.Names`).  A package that the manifest lists is unused when it is not
  ignored and no Dart file below the scanned directories names it; a package for development
  may also be named where the other ones are looked for (`Project.Unused`,
  `Project.UnusedDev`).

  The search for named packages does not fail (`usedBelow_run`), so the rule tells of exactly
  the unused packages of either section, in byte order (`Project.tells`).  Text added to Dart
  files, more ignored packages and more directories only take packages off the report
  (`Project.unused_of_appended`, `Project.unusedDev_of_appended`), as long as a list in the
  options was written out before: a first entry replaces the default list
  (`first_entries_add_reports`).
-/
import SourceAudit.Proofs.AppendedFiles
import SourceAudit.Proofs.ByteOrder
import SourceAudit.Proofs.ManifestNames
import SourceAudit.Proofs.Records
import SourceAudit.Proofs.Statements
import SourceAudit.Rule.UnusedPackages

namespace SourceAudit

namespace DartPackage

/-- The name of a package stands in a URI between `package:` and the next slash or the end. -/
def LeadsInto (uri package : String) : Prop :=
  package ≠ "" ∧ '/' ∉ package.toList ∧
    ∃ rest, uri = "package:" ++ package ++ rest ∧ ∀ c ∈ rest.toList.head?, c = '/'

theorem takeWhile_slash_iff {s front : List Char} : s.takeWhile (· ≠ '/') = front ↔
    '/' ∉ front ∧ ∃ rest, s = front ++ rest ∧ ∀ c ∈ rest.head?, c = '/' := by
  constructor
  · rintro rfl
    refine ⟨fun hslash => ?_, s.dropWhile (· ≠ '/'), List.takeWhile_append_dropWhile.symm, ?_⟩
    · have hother := List.mem_takeWhile_imp (p := fun c => decide (c ≠ '/')) hslash
      simp at hother
    · intro c hc
      have hstop := List.head?_dropWhile_not (· ≠ '/') s
      rw [Option.mem_def.mp hc] at hstop
      simpa using hstop
  · rintro ⟨hslash, rest, rfl, hrest⟩
    have hfront : ∀ c ∈ front, decide (c ≠ '/') = true := by
      intro c hc
      rw [decide_eq_true_iff]
      rintro rfl
      exact hslash hc
    have hstop : rest.takeWhile (· ≠ '/') = [] := by
      cases rest with
      | nil => rfl
      | cons c tail =>
        obtain rfl : c = '/' := hrest c rfl
        rfl
    rw [List.takeWhile_append_of_pos hfront, hstop, List.append_nil]

theorem nameOf?_eq_some_iff {uri package : String} :
    nameOf? uri = some package ↔ LeadsInto uri package := by
  rw [nameOf?, Option.bind_eq_bind, Option.bind_eq_some_iff]
  simp only [Text.afterStart?_eq_some_iff]
  constructor
  · rintro ⟨behind, hbehind, hname⟩
    split at hname
    · cases hname
    · next hne =>
      obtain rfl := Option.some.inj hname
      obtain ⟨hslash, rest, hrest, hhead⟩ := takeWhile_slash_iff.mp (Eq.refl (behind.takeWhile _))
      refine ⟨by simpa using hne, by rwa [String.toList_ofList], String.ofList rest, ?_, ?_⟩
      · rw [← String.toList_inj, hbehind]
        simp only [String.toList_append, String.toList_ofList, List.append_assoc, ← hrest]
      · rwa [String.toList_ofList]
  · rintro ⟨hne, hslash, rest, rfl, hhead⟩
    refine ⟨package.toList ++ rest.toList, by simp, ?_⟩
    rw [takeWhile_slash_iff.mpr ⟨hslash, rest.toList, rfl, hhead⟩, if_neg (by simpa using hne),
      String.ofList_toList]

end DartPackage

namespace UnusedPackages

/-! ### Packages in use -/

/-- A file names a package: it can be read, and a statement in it leads into the package. -/
def Names (w : Workspace) (file : Path) (package : String) : Prop :=
  ∃ text, w.readText file = .ok text ∧
    ∃ d ∈ Directive.ofText .dart text.toList, DartPackage.LeadsInto d.uri package

/-- A Dart file below one of the paths of a package names another one. -/
def NamedBelow (w : Workspace) (root : Path) (paths : List String) (package : String) : Prop :=
  ∃ path ∈ paths, ∃ file, DartPackage.Included w (root.join ⟨path⟩) [] file ∧ Names w file package

theorem mem_packagesOf_iff {w : Workspace} {file : Path} {package : String} :
    package ∈ packagesOf (DartPackage.directives w file).value ↔ Names w file package := by
  rw [packagesOf, List.mem_filterMap]
  simp only [DartPackage.nameOf?_eq_some_iff]
  cases hread : w.readText file with
  | error reason =>
    rw [DartPackage.directives_value_unreadable hread]
    simp [Names, hread]
  | ok text =>
    rw [DartPackage.directives_value hread]
    simp [Names, hread]

theorem mem_usedIn_iff {w : Workspace} {files : List Path} {package : String} :
    package ∈ (usedIn w files).value ↔ ∃ file ∈ files, Names w file package := by
  induction files with
  | nil => simp [usedIn]
  | cons file rest ih =>
    rw [usedIn, Logged.value_bind, Logged.value_bind, Logged.value_pure, List.mem_append,
      mem_packagesOf_iff, ih]
    simp

/-- The search for packages does not fail. -/
theorem usedBelow_run (w : Workspace) (root : Path) (paths : List String) :
    ∃ used, (usedBelow w root paths).run.value = .ok used ∧
      ∀ package, package ∈ used ↔ NamedBelow w root paths package := by
  induction paths with
  | nil => exact ⟨[], rfl, by simp [NamedBelow]⟩
  | cons path rest ih =>
    obtain ⟨more, hmore, hmem⟩ := ih
    by_cases hdirectory : w.isDirectory (root.join ⟨path⟩) = true
    · refine ⟨(usedIn w (DartPackage.listing w (root.join ⟨path⟩) [])).value ++ more, ?_, ?_⟩
      · rw [usedBelow, if_pos hdirectory]
        simp only [RuleWork.value_bind, DartPackage.files_run [] hdirectory, RuleWork.value_lift,
          hmore, Except.bind, RuleWork.value_pure]
      · intro package
        rw [List.mem_append, mem_usedIn_iff, hmem]
        simp only [DartPackage.mem_listing_iff hdirectory, NamedBelow, List.mem_cons,
          exists_eq_or_imp]
    · refine ⟨more, ?_, ?_⟩
      · rw [usedBelow, if_neg hdirectory]
        simp only [RuleWork.value_bind, hmore, Except.bind, RuleWork.value_pure, List.nil_append]
      · intro package
        rw [hmem]
        constructor
        · rintro ⟨other, hother, hnamed⟩
          exact ⟨other, List.mem_cons_of_mem path hother, hnamed⟩
        · rintro ⟨other, hother, file, hfile, hnames⟩
          rcases List.mem_cons.mp hother with rfl | hother
          · exact absurd hfile.directory_exists hdirectory
          · exact ⟨other, hother, file, hfile, hnames⟩

theorem mem_unused_iff {listed ignored used : List String} {package : String} :
    package ∈ unused listed ignored used ↔
      package ∈ listed ∧ package ∉ ignored ∧ package ∉ used := by
  simp [unused]

/-! ### More text, more paths -/

variable {w w' : Workspace}

theorem Names.appended {file : Path} {package : String} (h : w.Appended w')
    (hnames : Names w file package) : Names w' file package := by
  obtain ⟨s, hread, d, hd, huri⟩ := hnames
  obtain ⟨text, hread', -⟩ := h.readText_ok hread
  refine ⟨s ++ text, hread', d, ?_, huri⟩
  rw [String.toList_append]
  exact (Directive.ofText_prefix .dart s.toList text.toList).subset hd

/-- What names a package names it after text is added and more paths are looked at. -/
theorem NamedBelow.mono {root : Path} {paths paths' : List String} {package : String}
    (h : w.Appended w') (hpaths : paths ⊆ paths') (hnamed : NamedBelow w root paths package) :
    NamedBelow w' root paths' package := by
  obtain ⟨path, hpath, file, hfile, hnames⟩ := hnamed
  exact ⟨path, hpaths hpath, file, h.included_iff.mpr hfile, hnames.appended h⟩

/-! ### Projects and options -/

/-- A Dart package with a manifest that can be read. -/
structure Project (p : ProjectContext) where
  /-- The directory of the manifest. -/
  root : Path
  text : String
  manifest : Manifest
  root_found : DartPackage.root? p.workspace p.root = some root
  text_read : p.workspace.readText (root.child Manifest.fileName) = .ok text
  manifest_read : Manifest.ofText? text = some manifest

/-- Valid options of the rule. -/
structure Options (config : RuleConfig) where
  severity : Severity
  scanned : ScanPaths
  /-- The severity is written by its name; without one, it is a warning. -/
  severity_read : (config.text? "severity").elim (severity = .warning) fun name =>
    (name, severity) ∈ [("error", .error), ("warning", .warning), ("info", .info)]
  scanned_read : ScanPaths.ofConfig config = .ok scanned

theorem Options.severity_ok {config : RuleConfig} (o : Options config) :
    PatternOption.severity "severity" .warning (config.text? "severity") = .ok o.severity := by
  have hread := o.severity_read
  cases htext : config.text? "severity" with
  | none =>
    rw [htext] at hread
    exact congrArg Except.ok (Eq.symm hread)
  | some name =>
    rw [htext, Option.elim_some] at hread
    simp only [List.mem_cons, Prod.mk.injEq, List.not_mem_nil, or_false] at hread
    rcases hread with ⟨rfl, h⟩ | ⟨rfl, h⟩ | ⟨rfl, h⟩ <;> rw [h] <;> rfl

/-- The packages that are never reported. -/
def ignored (config : RuleConfig) : List String :=
  (config.texts? "ignore_packages").getD usuallyIgnored

/-- Whether the section for development is looked at. -/
def checksDev (config : RuleConfig) : Bool := config.bool "check_dev_dependencies" true

variable {p : ProjectContext} {config config' : RuleConfig}

namespace Project

variable (j : Project p) (o : Options config)

/-- A package of the first section that is not ignored and that no file names. -/
def Unused (package : String) : Prop :=
  Manifest.Lists j.text "dependencies" package ∧ package ∉ ignored config ∧
    ¬ NamedBelow p.workspace j.root o.scanned.dependencies package

/-- A package of the section for development that is not ignored and that no file names,
    neither below the paths for this section nor below those for the other. -/
def UnusedDev (package : String) : Prop :=
  checksDev config = true ∧ Manifest.Lists j.text "dev_dependencies" package ∧
    package ∉ ignored config ∧
    ¬ NamedBelow p.workspace j.root o.scanned.dependencies package ∧
    ¬ NamedBelow p.workspace j.root o.scanned.devDependencies package

end Project

/-- What is told of a package of a section. -/
def reportOf (severity : Severity) (sectionName : String) (paths : List String)
    (package : String) : Violation where
  file := "pubspec.yaml"
  rule := "dart_unused_dependencies"
  severity := severity
  message := "Package '" ++ package ++ "' is listed in pubspec.yaml " ++ sectionName ++
    " but never imported in " ++ ", ".intercalate paths
  magnitude := none

/-- The report of packages of either section. -/
def Options.report (o : Options config) (packages devPackages : List String) : List Violation :=
  packages.map (reportOf o.severity "dependencies" o.scanned.dependencies) ++
    devPackages.map (reportOf o.severity "dev_dependencies" o.scanned.devDependencies)

/-- The rule tells of the unused packages of either section, in byte order, each once. -/
structure Tells (j : Project p) (o : Options config) (packages devPackages : List String) :
    Prop where
  answer : (check p config).run.value = .ok (o.report packages devPackages)
  ordered : packages.Pairwise fun a b => utf8 a < utf8 b
  devOrdered : devPackages.Pairwise fun a b => utf8 a < utf8 b
  mem_iff : ∀ package, package ∈ packages ↔ j.Unused o package
  mem_dev_iff : ∀ package, package ∈ devPackages ↔ j.UnusedDev o package

/-- Text added to Dart files makes no other package. -/
def Project.appended (j : Project p) (h : p.workspace.Appended w') :
    Project { p with workspace := w' } where
  root := j.root
  text := j.text
  manifest := j.manifest
  root_found := (h.root?_eq p.root).trans j.root_found
  text_read := by
    obtain ⟨text, hread, hsame⟩ := h.readText_ok j.text_read
    have hlast : (j.root.child Manifest.fileName).segments.getLastD "" = Manifest.fileName := by
      rw [List.getLastD_eq_getLast?, Path.child, Path.segments_join_getLast?]
      decide
    obtain rfl := hsame (by rw [hlast]; decide)
    rwa [String.append_empty] at hread
  manifest_read := j.manifest_read

/-- A list in the options stays as it is or gets more entries.  Where none was written, the
    default list counts, and what is written then takes its place. -/
def Grown (default : List String) (before after : Option Datum) : Prop :=
  after = before ∨ ∃ items items', before.getD (.list (default.map .text)) = .list items ∧
    after = some (.list items') ∧ items ⊆ items'

/-- What is written about the paths for a section. -/
def pathsWritten (config : RuleConfig) (sectionName : String) : Option Datum :=
  ((config.option? "scan_paths").elim []
    (Shape.entriesOf ["dependencies", "dev_dependencies"])).lookup sectionName

/-- Options with more ignored packages and more paths. -/
structure Grow (config config' : RuleConfig) : Prop where
  ignored : Grown usuallyIgnored (config.option? "ignore_packages")
    (config'.option? "ignore_packages")
  dependencies : Grown ["lib"] (pathsWritten config "dependencies")
    (pathsWritten config' "dependencies")
  devDependencies : Grown ["test", "integration_test"] (pathsWritten config "dev_dependencies")
    (pathsWritten config' "dev_dependencies")
  checksDev : config'.option? "check_dev_dependencies" = config.option? "check_dev_dependencies"

/-! ### Lists in the options -/

theorem mem_texts_iff {items : List Datum} {names : List String}
    (hread : Shape.texts (.list items) = .ok names) {name : String} :
    name ∈ names ↔ .text name ∈ items := by
  replace hread := mapM_eq_ok_iff.mp hread
  induction hread with
  | nil => simp
  | @cons d first items names hfirst _ ih =>
    have hd : d = .text first := by
      cases d <;> cases hfirst
      rfl
    simp only [List.mem_cons, hd, ih, Datum.text.injEq]

theorem texts_map_text (names : List String) :
    Shape.texts (.list (names.map .text)) = .ok names := by
  refine mapM_eq_ok_iff.mpr ?_
  induction names with
  | nil => exact .nil
  | cons name rest ih => exact .cons rfl ih

theorem ScanPaths.step_dependencies {s s' : ScanPaths} {d : Datum}
    (hstep : step s ("dependencies", d) = .ok s') : Shape.texts d = .ok s'.dependencies := by
  obtain ⟨paths, hpaths, hs'⟩ := bind_eq_ok_iff.mp hstep
  cases hs'
  exact hpaths

theorem ScanPaths.step_devDependencies {s s' : ScanPaths} {d : Datum}
    (hstep : step s ("dev_dependencies", d) = .ok s') :
    Shape.texts d = .ok s'.devDependencies := by
  obtain ⟨paths, hpaths, hs'⟩ := bind_eq_ok_iff.mp hstep
  cases hs'
  exact hpaths

/-- Another field leaves the paths for a section as they are. -/
theorem ScanPaths.step_keeps {s s' : ScanPaths} {key : String} {d : Datum}
    (hstep : step s (key, d) = .ok s') :
    (key ≠ "dependencies" → s'.dependencies = s.dependencies) ∧
      (key ≠ "dev_dependencies" → s'.devDependencies = s.devDependencies) := by
  unfold step at hstep
  split at hstep
  · next hentry =>
    cases hentry
    obtain ⟨paths, -, hs'⟩ := bind_eq_ok_iff.mp hstep
    cases hs'
    exact ⟨fun hother => absurd rfl hother, fun _ => rfl⟩
  · next hentry =>
    cases hentry
    obtain ⟨paths, -, hs'⟩ := bind_eq_ok_iff.mp hstep
    cases hs'
    exact ⟨fun _ => rfl, fun hother => absurd rfl hother⟩
  · cases hstep
    exact ⟨fun _ => rfl, fun _ => rfl⟩

theorem ScanPaths.fields_of_ofDatum {d : Datum} {s : ScanPaths} (hread : ofDatum d = .ok s) :
    let entries := Shape.entriesOf ["dependencies", "dev_dependencies"] d
    Shape.fieldOr "dependencies" Shape.texts ["lib"] entries = .ok s.dependencies ∧
      Shape.fieldOr "dev_dependencies" Shape.texts ["test", "integration_test"] entries =
        .ok s.devDependencies := by
  constructor
  · exact Shape.record_field ScanPaths.dependencies (fun _ _ _ => step_dependencies)
      (fun _ _ _ _ hother h => (step_keeps h).1 hother) (by decide) (by decide) hread
  · exact Shape.record_field ScanPaths.devDependencies
      (fun _ _ _ => step_devDependencies) (fun _ _ _ _ hother h => (step_keeps h).2 hother)
      (by decide) (by decide) hread

theorem texts_getD {key : String} {default names : List String}
    {entries : List (String × Datum)}
    (hread : Shape.fieldOr key Shape.texts default entries = .ok names) :
    Shape.texts ((entries.lookup key).getD (.list (default.map .text))) = .ok names := by
  rw [Shape.fieldOr] at hread
  cases hlookup : entries.lookup key with
  | none =>
    rw [hlookup] at hread
    rw [Option.getD_none, texts_map_text]
    exact hread
  | some d =>
    rw [hlookup] at hread
    exact hread

/-- The paths for a section are read from what is written about it, else by default. -/
theorem Options.paths_read (o : Options config) :
    Shape.texts ((pathsWritten config "dependencies").getD (.list (["lib"].map .text))) =
        .ok o.scanned.dependencies ∧
      Shape.texts ((pathsWritten config "dev_dependencies").getD
        (.list (["test", "integration_test"].map .text))) = .ok o.scanned.devDependencies := by
  have hread := o.scanned_read
  unfold pathsWritten
  unfold ScanPaths.ofConfig at hread
  cases hoption : config.option? "scan_paths" with
  | none =>
    rw [hoption] at hread
    rw [← Except.ok.inj hread]
    exact ⟨texts_map_text _, texts_map_text _⟩
  | some d =>
    rw [hoption] at hread
    cases hscanned : ScanPaths.ofDatum d with
    | error e =>
      simp only [hscanned] at hread
      cases hread
    | ok scanned =>
      simp only [hscanned] at hread
      obtain ⟨hdependencies, hdev⟩ := ScanPaths.fields_of_ofDatum hscanned
      rw [← Except.ok.inj hread]
      exact ⟨texts_getD hdependencies, texts_getD hdev⟩

theorem Grown.texts_subset {default names names' : List String} {before after : Option Datum}
    (h : Grown default before after)
    (hbefore : Shape.texts (before.getD (.list (default.map .text))) = .ok names)
    (hafter : Shape.texts (after.getD (.list (default.map .text))) = .ok names') :
    names ⊆ names' := by
  rcases h with rfl | ⟨items, items', hwas, rfl, hmore⟩
  · rw [hbefore] at hafter
    rw [Except.ok.inj hafter]
    exact List.Subset.refl _
  · rw [hwas] at hbefore
    intro name hname
    exact (mem_texts_iff hafter).mpr (hmore ((mem_texts_iff hbefore).mp hname))

theorem mem_ignored_iff {items : List Datum} {name : String}
    (hitems : (config.option? "ignore_packages").getD (.list (usuallyIgnored.map .text)) =
      .list items) : name ∈ ignored config ↔ .text name ∈ items := by
  rw [ignored, RuleConfig.texts?]
  cases hoption : config.option? "ignore_packages" with
  | none =>
    rw [hoption] at hitems
    cases hitems
    simp
  | some d =>
    rw [hoption, Option.getD_some] at hitems
    subst hitems
    rw [Option.getD_some, List.mem_filterMap]
    constructor
    · rintro ⟨d, hd, hname⟩
      cases d <;> cases hname
      exact hd
    · intro hname
      exact ⟨_, hname, rfl⟩

theorem ignored_subset (h : Grow config config') : ignored config ⊆ ignored config' := by
  rcases h.ignored with hsame | ⟨items, items', hwas, hnow, hmore⟩
  · rw [ignored, ignored, RuleConfig.texts?, RuleConfig.texts?, hsame]
    exact List.Subset.refl _
  · intro name hname
    have hitems' : (config'.option? "ignore_packages").getD (.list (usuallyIgnored.map .text)) =
        .list items' := by rw [hnow, Option.getD_some]
    exact (mem_ignored_iff hitems').mpr (hmore ((mem_ignored_iff hwas).mp hname))

theorem checksDev_eq (h : Grow config config') : checksDev config' = checksDev config := by
  rw [checksDev, checksDev, RuleConfig.bool, RuleConfig.bool, h.checksDev]

/-! ### The report -/

namespace Project

variable (j : Project p) (o : Options config)

/-- The packages that are named below the paths for the first section and below those for
    development, and the report in terms of them. -/
theorem check_run : ∃ used usedDev,
    (∀ package, package ∈ used ↔
      NamedBelow p.workspace j.root o.scanned.dependencies package) ∧
    (∀ package, package ∈ usedDev ↔
      NamedBelow p.workspace j.root o.scanned.devDependencies package) ∧
    (check p config).run.value = .ok (o.report
      (unused j.manifest.dependencies (ignored config) used)
      (if checksDev config then
        unused j.manifest.devDependencies (ignored config) (usedDev ++ used) else [])) := by
  obtain ⟨used, hused, hnamed⟩ := usedBelow_run p.workspace j.root o.scanned.dependencies
  obtain ⟨usedDev, husedDev, hnamedDev⟩ :=
    usedBelow_run p.workspace j.root o.scanned.devDependencies
  refine ⟨used, usedDev, hnamed, hnamedDev, ?_⟩
  have hmanifest : (DartPackage.manifest p.workspace j.root).run.value = .ok j.manifest :=
    Manifest.ofFile_eq_ok j.text_read j.manifest_read
  simp only [check, j.root_found, checkPackage, RuleWork.value_bind, hmanifest,
    RuleWork.value_ofResult, o.severity_ok, o.scanned_read, hused, Except.bind]
  rw [checksDev]
  split
  · simp only [RuleWork.value_bind, husedDev, RuleWork.value_pure, RuleWork.value_debug,
      Except.bind]
    rfl
  · simp only [RuleWork.value_bind, RuleWork.value_pure, RuleWork.value_debug, Except.bind]
    rfl

theorem tells : ∃ packages devPackages, Tells j o packages devPackages := by
  obtain ⟨used, usedDev, hused, husedDev, hanswer⟩ := j.check_run o
  obtain ⟨hsorted, hnames⟩ := Manifest.dependencies_isSection.names j.manifest_read
  obtain ⟨hsortedDev, hnamesDev⟩ := Manifest.devDependencies_isSection.names j.manifest_read
  have hbytes {names : List String} (h : names.Pairwise (· < ·)) :
      names.Pairwise fun a b => utf8 a < utf8 b :=
    h.imp fun hab => utf8_lt_iff.mpr hab
  refine ⟨_, _, hanswer, hbytes (hsorted.filter _), ?_, fun package => ?_, fun package => ?_⟩
  · split
    · exact hbytes (hsortedDev.filter _)
    · exact List.Pairwise.nil
  · rw [mem_unused_iff, hnames, hused, Unused]
  · rw [UnusedDev]
    cases checksDev config with
    | false => simp
    | true =>
      rw [if_pos rfl, mem_unused_iff, hnamesDev, List.mem_append, husedDev, hused, not_or]
      simp [and_comm]

theorem unused_of_appended {o : Options config} {o' : Options config'}
    (h : p.workspace.Appended w') (hgrow : Grow config config') {package : String}
    (hunused : (j.appended h).Unused o' package) : j.Unused o package := by
  obtain ⟨hlisted, hignored, hnamed⟩ := hunused
  refine ⟨hlisted, fun hold => hignored (ignored_subset hgrow hold), fun hold => hnamed ?_⟩
  exact hold.mono h (hgrow.dependencies.texts_subset o.paths_read.1 o'.paths_read.1)

theorem unusedDev_of_appended {o : Options config} {o' : Options config'}
    (h : p.workspace.Appended w') (hgrow : Grow config config') {package : String}
    (hunused : (j.appended h).UnusedDev o' package) : j.UnusedDev o package := by
  obtain ⟨hdev, hlisted, hignored, hnamed, hnamedDev⟩ := hunused
  refine ⟨checksDev_eq hgrow ▸ hdev, hlisted, fun hold => hignored (ignored_subset hgrow hold),
    fun hold => hnamed ?_, fun hold => hnamedDev ?_⟩
  · exact hold.mono h (hgrow.dependencies.texts_subset o.paths_read.1 o'.paths_read.1)
  · exact hold.mono h (hgrow.devDependencies.texts_subset o.paths_read.2 o'.paths_read.2)

/-- **Unused packages.**  The report tells of exactly the listed packages that are neither
    ignored nor named where they would be.  Text added to Dart files, packages added to the list
    of ignored ones and paths added to those that are scanned tell of no other package; but a
    list that is left out counts as its default, which it takes to write out to add to it. -/
theorem check_tells_unused : ∃ packages devPackages, Tells j o packages devPackages ∧
    ∀ {w' : Workspace} (h : p.workspace.Appended w') {config' : RuleConfig}
      (o' : Options config'), Grow config config' →
      ∃ packages' devPackages', Tells (j.appended h) o' packages' devPackages' ∧
        packages' ⊆ packages ∧ devPackages' ⊆ devPackages := by
  obtain ⟨packages, devPackages, htells⟩ := j.tells o
  refine ⟨packages, devPackages, htells, ?_⟩
  intro w' h config' o' hgrow
  obtain ⟨packages', devPackages', htells'⟩ := (j.appended h).tells o'
  refine ⟨packages', devPackages', htells', fun package hpackage => ?_, fun package hpackage => ?_⟩
  · exact (htells.mem_iff package).mpr
      (j.unused_of_appended h hgrow ((htells'.mem_iff package).mp hpackage))
  · exact (htells.mem_dev_iff package).mpr
      (j.unusedDev_of_appended h hgrow ((htells'.mem_dev_iff package).mp hpackage))

end Project

/-! ### A package that comes into use -/

def shopManifest : String :=
  "dependencies:\n  intl: any\n  http: any\n  args: any\ndev_dependencies:\n  lints: any\n"

/-- A package with one file, which names `http` and goes on with more text. -/
def shopWorkspace (more : String) : Workspace where
  tree := .directory [("w", .directory
    [("pubspec.yaml", .file (.text shopManifest)),
     ("lib", .directory
      [("a.dart", .file (.text ("import 'package:http/http.dart';\n" ++ more)))])])]
  workingNames := []
  home := none
  settingsDirectory := none

def shopContext : ProjectContext where
  root := ⟨"/w"⟩
  files := [⟨"/w/lib/a.dart"⟩]
  resolver := ⟨⟨"/w"⟩, none⟩
  workspace := shopWorkspace ""

def shopProject : Project shopContext where
  root := ⟨"/w"⟩
  text := shopManifest
  manifest := ⟨none, ["args", "http", "intl"], ["lints"]⟩
  root_found := by decide +kernel
  text_read := by rfl
  manifest_read := by decide +kernel

/-- One ignored package and one path, written out. -/
def shopConfig : RuleConfig :=
  { RuleConfig.default with
    options := [("ignore_packages", .list [.text "args"]),
      ("scan_paths", .table [("dependencies", .list [.text "lib"])])] }

def shopOptions : Options shopConfig where
  severity := .warning
  scanned := ⟨["lib"], ["test", "integration_test"]⟩
  severity_read := by rfl
  scanned_read := by rfl

/-- One more ignored package and one more path. -/
def grownConfig : RuleConfig :=
  { RuleConfig.default with
    options := [("ignore_packages", .list [.text "args", .text "lints"]),
      ("scan_paths", .table [("dependencies", .list [.text "lib", .text "bin"])])] }

def grownOptions : Options grownConfig where
  severity := .warning
  scanned := ⟨["lib", "bin"], ["test", "integration_test"]⟩
  severity_read := by rfl
  scanned_read := by rfl

theorem shop_grow : Grow shopConfig grownConfig where
  ignored := .inr ⟨[.text "args"], [.text "args", .text "lints"], rfl, rfl, by simp⟩
  dependencies := .inr ⟨[.text "lib"], [.text "lib", .text "bin"], rfl, rfl, by simp⟩
  devDependencies := .inl rfl
  checksDev := rfl

theorem shop_appended :
    shopContext.workspace.Appended (shopWorkspace "import 'package:intl/intl.dart';\n") := by
  have hread : shopContext.workspace.readText ⟨"/w/lib/a.dart"⟩ =
      .ok ("import 'package:http/http.dart';\n" ++ "") := by rfl
  have hwritten : shopContext.workspace.writeText ⟨"/w/lib/a.dart"⟩
      ("import 'package:http/http.dart';\n" ++ "" ++ "import 'package:intl/intl.dart';\n") =
        .ok (shopWorkspace "import 'package:intl/intl.dart';\n") := by
    rw [String.append_empty]
    rfl
  exact Workspace.appended_of_writeText hread (by decide +kernel) hwritten

theorem namedBelow_iff_of_run {root : Path} {paths used : List String}
    (hrun : (usedBelow w root paths).run.value = .ok used) {package : String} :
    NamedBelow w root paths package ↔ package ∈ used := by
  obtain ⟨found, hfound, hmem⟩ := usedBelow_run w root paths
  obtain rfl : used = found := Except.ok.inj (hrun.symm.trans hfound)
  exact (hmem package).symm

theorem shop_intl_unused : shopProject.Unused shopOptions "intl" := by
  have hrun : (usedBelow (shopWorkspace "") ⟨"/w"⟩ ["lib"]).run.value = .ok ["http"] := by
    decide +kernel
  refine ⟨?_, by decide, ?_⟩
  · have hnames := (Manifest.dependencies_isSection.names shopProject.manifest_read).2
    exact (hnames "intl").mp (by decide)
  · intro hnamed
    exact absurd ((namedBelow_iff_of_run hrun).mp hnamed) (by decide)

theorem grown_intl_used :
    ¬ (shopProject.appended shop_appended).Unused grownOptions "intl" := by
  have hrun : (usedBelow (shopWorkspace "import 'package:intl/intl.dart';\n") ⟨"/w"⟩
      ["lib", "bin"]).run.value = .ok ["http", "intl"] := by decide +kernel
  rintro ⟨-, -, hnamed⟩
  exact hnamed ((namedBelow_iff_of_run hrun).mpr (by decide))

theorem check_tells_unused_shop : ∃ packages devPackages,
    Tells shopProject shopOptions packages devPackages ∧ "intl" ∈ packages ∧
      shopOptions.report packages devPackages =
        [⟨"pubspec.yaml", "dart_unused_dependencies", .warning,
          "Package 'intl' is listed in pubspec.yaml dependencies but never imported in lib", none⟩,
         ⟨"pubspec.yaml", "dart_unused_dependencies", .warning,
          "Package 'lints' is listed in pubspec.yaml dev_dependencies but never imported in " ++
            "test, integration_test", none⟩] ∧
      ∃ packages' devPackages',
        Tells (shopProject.appended shop_appended) grownOptions packages' devPackages' ∧
          packages' ⊆ packages ∧ devPackages' ⊆ devPackages ∧ "intl" ∉ packages' := by
  obtain ⟨packages, devPackages, htells, hmore⟩ := shopProject.check_tells_unused shopOptions
  obtain ⟨packages', devPackages', htells', hsub, hsubDev⟩ :=
    hmore shop_appended grownOptions shop_grow
  have hreport : (check shopContext shopConfig).run.value.toOption = some
      [⟨"pubspec.yaml", "dart_unused_dependencies", .warning,
        "Package 'intl' is listed in pubspec.yaml dependencies but never imported in lib", none⟩,
       ⟨"pubspec.yaml", "dart_unused_dependencies", .warning,
        "Package 'lints' is listed in pubspec.yaml dev_dependencies but never imported in " ++
          "test, integration_test", none⟩] := by decide +kernel
  rw [htells.answer] at hreport
  refine ⟨packages, devPackages, htells, (htells.mem_iff "intl").mpr shop_intl_unused,
    Option.some.inj hreport, packages', devPackages', htells', hsub, hsubDev, fun hintl => ?_⟩
  exact grown_intl_used ((htells'.mem_iff "intl").mp hintl)

/-! ### A first entry in place of a default list -/

/-- A package that is ignored by default and one that a file below `lib` names. -/
def flutterContext : ProjectContext where
  root := ⟨"/w"⟩
  files := []
  resolver := ⟨⟨"/w"⟩, none⟩
  workspace :=
    { tree := .directory [("w", .directory
        [("pubspec.yaml", .file (.text "dependencies:\n  flutter: any\n  http: any\n")),
         ("lib", .directory
          [("a.dart", .file (.text "import 'package:http/http.dart';\n"))])])]
      workingNames := []
      home := none
      settingsDirectory := none }

/-- A first ignored package and a first path add a report each, where the default list had
    none. -/
theorem first_entries_add_reports :
    let ignoring := { RuleConfig.default with
      options := [("ignore_packages", .list [.text "lints"])] }
    let scanning := { RuleConfig.default with
      options := [("scan_paths", .table [("dependencies", .list [.text "bin"])])] }
    (check flutterContext .default).run.value.toOption = some [] ∧
      (check flutterContext ignoring).run.value.toOption =
        some [reportOf .warning "dependencies" ["lib"] "flutter"] ∧
      (check flutterContext scanning).run.value.toOption =
        some [reportOf .warning "dependencies" ["bin"] "http"] := by
  decide +kernel

end UnusedPackages

end SourceAudit
