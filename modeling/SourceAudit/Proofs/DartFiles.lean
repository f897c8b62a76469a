/-
  SourceAudit/Proofs/DartFiles.lean
  =================================
  **The Dart files of a directory, and what they name.**

  `DartPackage.files` walks a directory, folds the paths it finds and leaves out what
  the globs of a rule accept.  In an existing directory that never fails, and since
  folding keeps the components of everything below a folded directory, the list stays
  in path order (`files_run`, `files_increasing`).

  A URI leads to a file in one of two ways: it names the package itself, or it is
  relative to the file it stands in (`Package.Resolves`).
-/
import SourceAudit.Proofs.Walk
import SourceAudit.Proofs.Reachability
import SourceAudit.Rule.UnusedFiles

namespace SourceAudit

theorem Manifest.ofFile_eq_ok {w : Workspace} {path : Path} {text : String} {manifest : Manifest}
    (hread : w.readText path = .ok text) (htext : Manifest.ofText? text = some manifest) :
    Manifest.ofFile w path = .ok manifest := by
  rw [Manifest.ofFile, hread]
  simp [htext]

namespace DartPackage

/-- `f` is a Dart file below an existing directory: the walk lists it, and no glob accepts
    its name or its path behind the directory. -/
structure Included (w : Workspace) (directory : Path) (excludes : List Glob) (f : Path) :
    Prop where
  directory_exists : w.isDirectory directory = true
  listed : ∃ file ∈ Discovery.walk w true directory, Language.dart.owns file = true ∧
    file.folded = f
  not_left_out : PatternOption.leavesOut excludes f
    (((f.relativeTo? directory.folded).map Path.slashText).getD "") = false

def listing (w : Workspace) (directory : Path) (excludes : List Glob) : List Path :=
  (((Discovery.walk w true directory).filter Language.dart.owns).map Path.folded).filter fun file =>
    !PatternOption.leavesOut excludes file
      (((file.relativeTo? directory.folded).map Path.slashText).getD "")

theorem files_run {w : Workspace} {directory : Path} (excludes : List Glob)
    (hdirectory : w.isDirectory directory = true) :
    (files w directory excludes).run.value = .ok (listing w directory excludes) := by
  have hkeep : ((⟨.dart, [], true⟩ : Discovery).candidates w directory).filter
      (fun f => !(⟨.dart, [], true⟩ : Discovery).excludes directory f) =
      (Discovery.walk w true directory).filter Language.dart.owns := by
    simp [Discovery.excludes, Discovery.candidates]
  rw [files, RuleWork.value_bind, RuleWork.value_lift,
    Discovery.discover_directory _ hdirectory, hkeep]
  rfl

theorem mem_listing_iff {w : Workspace} {directory f : Path} {excludes : List Glob}
    (hdirectory : w.isDirectory directory = true) :
    f ∈ listing w directory excludes ↔ Included w directory excludes f := by
  rw [listing, List.mem_filter, List.mem_map]
  constructor
  · rintro ⟨⟨file, hfile, hfolded⟩, hkept⟩
    obtain ⟨hwalk, howns⟩ := List.mem_filter.mp hfile
    exact ⟨hdirectory, ⟨file, hwalk, howns, hfolded⟩, by simpa using hkept⟩
  · rintro ⟨-, ⟨file, hwalk, howns, hfolded⟩, hkept⟩
    exact ⟨⟨file, List.mem_filter.mpr ⟨hwalk, howns⟩, hfolded⟩, by simpa using hkept⟩

/-- Below a folded directory, the files are in path order, each once. -/
theorem listing_increasing {w : Workspace} (hproper : w.tree.Proper) (base : Path)
    (excludes : List Glob) : Path.Increasing (listing w base.folded excludes) := by
  refine Path.Increasing.filter (Path.Increasing.map ?_ ?_) _
  · exact (Discovery.walk_increasing hproper true base.folded).filter _
  · intro f hf
    obtain ⟨names, hnames, hcomponents⟩ :=
      Discovery.components_of_mem_walk hproper (List.mem_filter.mp hf).1
    exact Path.components_folded_below hnames hcomponents

theorem directives_value {w : Workspace} {file : Path} {text : String}
    (hread : w.readText file = .ok text) :
    (directives w file).value = Directive.ofText .dart text.toList := by
  rw [directives, hread]
  rfl

theorem directives_value_unreadable {w : Workspace} {file : Path} {reason : FileError}
    (hread : w.readText file = .error reason) : (directives w file).value = [] := by
  rw [directives, hread]
  rfl

theorem afterStart?_eq_some_iff {start uri rest : String} :
    afterStart? start uri = some rest ↔ uri = start ++ rest := by
  rw [afterStart?, Option.map_eq_some_iff]
  constructor
  · rintro ⟨tail, htail, rfl⟩
    rw [Text.afterStart?_eq_some_iff] at htail
    rw [← String.toList_inj, htail, String.toList_append, String.toList_ofList]
  · rintro rfl
    refine ⟨rest.toList, ?_, String.ofList_toList⟩
    rw [Text.afterStart?_eq_some_iff, String.toList_append]

end DartPackage

namespace UnusedFiles.Package

/-! ### What the files name -/

/-- The path a URI in a file stands for. -/
inductive Resolves (g : Package) (file : Path) (uri : String) : Path → Prop
  | ownPackage {name rest} (hname : g.name = some name)
      (huri : uri = DartPackage.ownStart name ++ rest) :
      Resolves g file uri ((g.root.child "lib").join ⟨rest⟩).folded
  | relative {parent} (hother : ∀ name, g.name = some name →
        ∀ rest, uri ≠ DartPackage.ownStart name ++ rest)
      (hlibrary : ¬ "dart:".toList <+: uri.toList)
      (hpackage : ¬ "package:".toList <+: uri.toList)
      (hparent : file.parent? = some parent) :
      Resolves g file uri (parent.join ⟨uri⟩).folded

/-- A directive of a readable file leads to an existing file. -/
def Names (g : Package) (w : Workspace) (file target : Path) : Prop :=
  ∃ text, w.readText file = .ok text ∧ ∃ d ∈ Directive.ofText .dart text.toList,
    g.Resolves file d.uri target ∧ w.isFile target = true

theorem resolves_iff {g : Package} {file target : Path} {uri : String} :
    (g.target? file uri).map Path.folded = some target ↔ g.Resolves file uri target := by
  rw [Option.map_eq_some_iff]
  cases hown : g.name.bind fun name =>
      DartPackage.afterStart? (DartPackage.ownStart name) uri with
  | some rest =>
    obtain ⟨name, hname, hrest⟩ := Option.bind_eq_some_iff.mp hown
    rw [DartPackage.afterStart?_eq_some_iff] at hrest
    simp only [target?, hown, Option.some.injEq]
    constructor
    · rintro ⟨path, rfl, rfl⟩
      exact .ownPackage hname hrest
    · intro hresolves
      cases hresolves with
      | @ownPackage name' rest' hname' huri =>
        obtain rfl : name = name' := Option.some.inj (hname.symm.trans hname')
        have hsame : rest = rest' := by
          have happend := hrest.symm.trans huri
          rw [← String.toList_inj, String.toList_append, String.toList_append] at happend
          exact String.toList_inj.mp (List.append_cancel_left happend)
        exact ⟨_, rfl, by rw [hsame]⟩
      | relative hother _ _ _ => exact absurd hrest (hother name hname rest)
  | none =>
    have hother : ∀ name, g.name = some name →
        ∀ rest, uri ≠ DartPackage.ownStart name ++ rest := by
      intro name hname rest huri
      rw [hname, Option.bind_some, DartPackage.afterStart?_eq_some_iff.mpr huri] at hown
      cases hown
    simp only [target?, hown]
    constructor
    · rintro ⟨path, hpath, rfl⟩
      split at hpath
      · cases hpath
      · next hexternal =>
        obtain ⟨parent, hparent, rfl⟩ := Option.map_eq_some_iff.mp hpath
        simp only [Bool.or_eq_true, List.isPrefixOf_iff_prefix, not_or] at hexternal
        exact .relative hother hexternal.1 hexternal.2 hparent
    · intro hresolves
      cases hresolves with
      | ownPackage hname huri => exact absurd huri (hother _ hname _)
      | relative _ hlibrary hpackage hparent =>
        rw [if_neg (by
          simp only [Bool.or_eq_true, List.isPrefixOf_iff_prefix, not_or]
          exact ⟨hlibrary, hpackage⟩), hparent]
        exact ⟨_, rfl, rfl⟩

theorem mem_targets_iff {g : Package} {w : Workspace} {file target : Path} :
    target ∈ (g.targets w file).value ↔ g.Names w file target := by
  have htargets : (g.targets w file).value =
      (DartPackage.directives w file).value.filterMap fun d => g.resolve? w file d.uri := rfl
  rw [htargets, List.mem_filterMap]
  cases hread : w.readText file with
  | error reason =>
    rw [DartPackage.directives_value_unreadable hread]
    simp [Names, hread]
  | ok text =>
    rw [DartPackage.directives_value hread]
    simp only [Names, hread, resolve?, Option.filter_eq_some_iff, resolves_iff, Except.ok.injEq,
      exists_eq_left']

theorem edges_value (g : Package) (w : Workspace) (files : List Path) :
    (g.edges w files).value = files.map fun f => (f, (g.targets w f).value) := by
  induction files with
  | nil => rfl
  | cons f rest ih =>
    rw [edges, Logged.value_bind, Logged.value_bind, Logged.value_pure, ih, List.map_cons]

/-- An edge leads from one of the files to a file it names. -/
theorem edge_iff {g : Package} {w : Workspace} {files : List Path} {a b : Path} :
    Reachable.Edge (g.edges w files).value a b ↔ a ∈ files ∧ g.Names w a b := by
  rw [edges_value, ← mem_targets_iff]
  constructor
  · rintro ⟨targets, hlookup, hb⟩
    obtain ⟨f, hf, hsame⟩ := List.mem_map.mp (Entries.mem_of_lookup hlookup)
    cases hsame
    exact ⟨hf, hb⟩
  · rintro ⟨ha, hb⟩
    refine ⟨(g.targets w a).value, ?_, hb⟩
    induction files with
    | nil => simp at ha
    | cons f rest ih =>
      rw [List.map_cons, List.lookup_cons]
      by_cases hsame : a = f
      · subst hsame
        simp
      · rw [beq_false_of_ne hsame]
        exact ih (List.mem_of_ne_of_mem hsame ha)

theorem mem_allTargets_iff {g : Package} {w : Workspace} {files : List Path} {target : Path} :
    target ∈ (g.allTargets w files).value ↔ ∃ file ∈ files, g.Names w file target := by
  rw [allTargets, Logged.value_bind, Logged.value_pure, edges_value, List.flatMap_map,
    List.mem_flatMap]
  simp only [mem_targets_iff]

end UnusedFiles.Package

end SourceAudit
