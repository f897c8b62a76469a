/-
  SourceAudit/Proofs/ConfigSpellings.lean
  =======================================
  **A configuration file under many names.**

  A path that leads to a file ends with its name, and the segments before it lead to its
  directory (`Workspace.leadsTo_of_resolve`), also where the directory of the path is cut off
  as a text (`Workspace.LeadsTo.canonical_directoryOf`).  So the format and the directory of a
  configuration are those of the file, however it was named.

    * `Config.ofFile_spellings`: two paths to one file;
    * `Config.ofFile_unequal`: where what was written still shows.
-/
import SourceAudit.Config.Document
import SourceAudit.Proofs.Validation
import SourceAudit.Proofs.WrittenFiles

namespace SourceAudit

/-! ### Paths that lead to a file -/

/-- A step to a file names it. -/
theorem FileTree.plain_of_step_file {tree : FileTree} {names found : List String}
    {segment : String} {content : Content} (hslash : '/' ∉ segment.toList)
    (hstep : resolveStep tree names segment = .ok found)
    (hfile : tree.at? found = some (.file content)) : Path.IsPlain segment := by
  obtain ⟨entries, hat, -⟩ := resolveStep_cases hstep
  simp only [resolveStep, hat] at hstep
  split at hstep
  · obtain rfl := Except.ok.inj hstep
    rw [hat] at hfile
    cases hfile
  · next hsilent =>
    split at hstep
    · obtain rfl := Except.ok.inj hstep
      obtain ⟨around, haround⟩ := directory_dropLast hat
      rw [haround] at hfile
      cases hfile
    · next hup => exact ⟨Bool.eq_false_iff.mpr hsilent, hup, hslash⟩

namespace Workspace

open FileTree (resolveStep)

/-- The path ends with a name, and what is before it leads to a directory. -/
structure LeadsTo (w : Workspace) (p : Path) (directory : List String) (name : String) :
    Prop where
  plain : Path.IsPlain name
  within : ∃ entries, w.tree.at? directory = some (.directory entries)
  steps : ∃ front, p.segments = front ++ [name] ∧
    front.foldlM (resolveStep w.tree) (if p.isAbsolute then [] else w.workingNames) =
      .ok directory

variable {w : Workspace} {p : Path} {directory names : List String} {name : String}

theorem leadsTo_of_resolve {content : Content} (hresolve : w.resolve p = .ok names)
    (hfile : w.tree.at? names = some (.file content)) :
    ∃ directory name, names = directory ++ [name] ∧ w.LeadsTo p directory name := by
  rw [resolve, FileTree.resolve] at hresolve
  split at hresolve
  · cases hresolve
  obtain ⟨front, name, hp⟩ :=
    (List.eq_nil_or_concat p.segments).resolve_left (Path.segments_ne_nil p)
  rw [List.concat_eq_append] at hp
  rw [hp, FileTree.steps_append_iff] at hresolve
  obtain ⟨directory, hfront, hlast⟩ := hresolve
  obtain ⟨found, hstep, hend⟩ := FileTree.steps_cons_iff.mp hlast
  obtain rfl : found = names := Except.ok.inj hend
  have hslash : '/' ∉ name.toList := Path.not_mem_segment (p := p) (by simp [hp])
  have hname : Path.IsPlain name := FileTree.plain_of_step_file hslash hstep hfile
  obtain ⟨entries, hwithin, -⟩ := FileTree.resolveStep_cases hstep
  exact ⟨directory, name, FileTree.eq_of_step_plain hname hstep, hname, ⟨entries, hwithin⟩,
    front, hp, hfront⟩

theorem LeadsTo.canonical_directoryOf (h : w.LeadsTo p directory name) :
    w.canonical (Config.directoryOf p) = .ok (Path.ofNames directory) := by
  obtain ⟨hname, ⟨entries, hwithin⟩, front, hp, hsteps⟩ := h
  obtain ⟨around, hparent, haround⟩ := Path.parent?_of_segments hname hp
  suffices hresolve : w.resolve (Config.directoryOf p) = .ok directory by
    rw [canonical, hresolve]
    rfl
  rw [Config.directoryOf, hparent]
  cases haround with
  | nothing hfront htext =>
    subst hfront
    rw [Path.not_absolute_of_segments hp hname.ne_empty] at hsteps
    obtain rfl : w.workingNames = directory := Except.ok.inj hsteps
    have hhere : ∀ s ∈ (⟨"."⟩ : Path).segments, Path.isSilent s = true := by decide
    have hempty : around.text.isEmpty = true := String.isEmpty_iff.mpr htext
    simp only [hempty, if_true]
    exact FileTree.steps_stay hwithin hhere
  | segments kept silent more htext habsolute hfront hsegments hsilent =>
    have hfull : around.text.isEmpty = false := by
      rw [← Bool.not_eq_true, String.isEmpty_iff]
      exact htext
    obtain ⟨hfirst, hsecond⟩ := List.forall_mem_append.mp hsilent
    rw [hfront, FileTree.steps_append_iff] at hsteps
    obtain ⟨place, hplace, hrest⟩ := hsteps
    obtain rfl : directory = place := FileTree.steps_silent hfirst hrest
    simp only [hfull, Bool.false_eq_true, if_false]
    rw [resolve, FileTree.resolve, hfull, if_neg Bool.false_ne_true, habsolute, hsegments,
      FileTree.steps_append_iff]
    exact ⟨directory, hplace, FileTree.steps_stay hwithin hsecond⟩

theorem LeadsTo.fileName? (h : w.LeadsTo p directory name) : p.fileName? = some name := by
  obtain ⟨hname, -, front, hp, -⟩ := h
  exact Path.fileName?_eq_some_iff.mpr (Path.components_getLast?_of_segments hname (by simp [hp]))

end Workspace

/-! ### Configurations read from them -/

namespace Config

variable {w : Workspace} {p q : Path} {directory names : List String} {name : String}

/-- A configuration as its text, its file name and its directory give it. -/
def ofText (directory : List String) (name text : String) : Checked Config :=
  (if isJsonPath ⟨name⟩ then ofJson text else ofToml text) >>= fun config =>
    return config.withSourceDirectory (some (Path.ofNames directory))

theorem isJsonPath_of_leadsTo (h : w.LeadsTo p directory name) :
    isJsonPath p = isJsonPath ⟨name⟩ := by
  have halone : (⟨name⟩ : Path).fileName? = some name :=
    Path.fileName?_eq_some_iff.mpr (Path.components_getLast?_of_segments h.plain
      (by rw [Path.segments_plain h.plain]; rfl))
  simp only [isJsonPath, Path.extension?, h.fileName?, halone]

theorem ofFile_of_leadsTo {text : String} (h : w.LeadsTo p directory name)
    (hread : w.readText p = .ok text) : ofFile w p = ofText directory name text := by
  rw [ofFile, hread, ofText, isJsonPath_of_leadsTo h]
  simp only [h.canonical_directoryOf]
  split <;> rfl

theorem sourceDirectory_ofText {text : String} {config : Config}
    (hdirectory : ∀ n ∈ directory, Path.IsPlain n)
    (hread : (ofText directory name text).outcome = .ok config) :
    config.sourceDirectory = some (Path.ofNames directory) := by
  have hfull : (Path.ofNames directory).text.isEmpty = false := by
    rw [← Bool.not_eq_true, String.isEmpty_iff]
    exact Path.text_ne_empty (.inl (Path.isAbsolute_ofNames hdirectory))
  rw [ofText, Checked.outcome_bind] at hread
  split at hread
  · obtain rfl := Except.ok.inj hread
    simp [withSourceDirectory, Option.filter_some, hfull]
  · cases hread

/-- Whatever keeps a file from being read, the error names the path as it was written. -/
theorem ofFile_unreadable {reason : FileError} (hread : w.readText p = .error reason) :
    ofFile w p = Checked.fail (.unreadable p reason) := by
  rw [ofFile, hread]

theorem readText_of_bytes {raw : List UInt8} (hresolve : w.resolve p = .ok names)
    (hfile : w.tree.at? names = some (.file (.bytes raw))) :
    w.readText p = .error .notText := by
  simp only [Workspace.readText, hresolve, hfile, bind, Except.bind]

/-- Two paths to one file give one configuration or one error, and the directory of the
configuration is that of the file, from the root and without dots.  Only the error about a file
that cannot be read, such as one that is no text, names the path as it was written. -/
theorem ofFile_spellings {content : Content} (hproper : w.tree.Proper)
    (hp : w.resolve p = .ok names) (hq : w.resolve q = .ok names)
    (hfile : w.tree.at? names = some (.file content)) :
    (∀ text, content = .text text → ofFile w p = ofFile w q) ∧
    (∀ raw, content = .bytes raw →
      ofFile w p = Checked.fail (.unreadable p .notText) ∧
      ofFile w q = Checked.fail (.unreadable q .notText)) ∧
    (∀ reason, w.readText p = .error reason →
      ofFile w p = Checked.fail (.unreadable p reason) ∧
      ofFile w q = Checked.fail (.unreadable q reason)) ∧
    ∀ config, (ofFile w p).outcome = .ok config →
      ∃ front name directory, names = front ++ [name] ∧ directory = Path.ofNames front ∧
        config.sourceDirectory = some directory ∧ directory.isAbsolute = true ∧
        .here ∉ directory.components ∧ .up ∉ directory.components := by
  obtain ⟨front, name, rfl, hleads⟩ := Workspace.leadsTo_of_resolve hp hfile
  obtain ⟨front', name', hsame, hleads'⟩ := Workspace.leadsTo_of_resolve hq hfile
  obtain ⟨rfl, rfl⟩ : front = front' ∧ name = name' := by simpa using hsame
  have hread {text : String} (hcontent : content = .text text) :
      ofFile w p = ofText front name text ∧ ofFile w q = ofText front name text := by
    subst hcontent
    exact ⟨ofFile_of_leadsTo hleads (Workspace.readText_eq_ok_iff.mpr ⟨_, hp, hfile⟩),
      ofFile_of_leadsTo hleads' (Workspace.readText_eq_ok_iff.mpr ⟨_, hq, hfile⟩)⟩
  refine ⟨fun text hcontent => (hread hcontent).1.trans (hread hcontent).2.symm, ?_, ?_, ?_⟩
  · rintro raw rfl
    exact ⟨ofFile_unreadable (readText_of_bytes hp hfile),
      ofFile_unreadable (readText_of_bytes hq hfile)⟩
  · intro reason hreason
    refine ⟨ofFile_unreadable hreason, ofFile_unreadable ?_⟩
    rw [← hreason, Workspace.readText, Workspace.readText, hp, hq]
  · intro config hconfig
    have hplain : ∀ n ∈ front, Path.IsPlain n := fun n hn =>
      hproper.plain hfile n (List.mem_append_left _ hn)
    cases content with
    | bytes raw =>
      rw [ofFile_unreadable (readText_of_bytes hp hfile)] at hconfig
      cases hconfig
    | text text =>
      rw [(hread rfl).1] at hconfig
      refine ⟨front, name, _, rfl, rfl, sourceDirectory_ofText hplain hconfig,
        Path.isAbsolute_ofNames hplain, ?_, ?_⟩
      · simp [Path.components_ofNames hplain]
      · simp [Path.components_ofNames hplain]

/-- A working directory next to the files. -/
def nestedConfigs : Workspace where
  tree := .directory [("w", .directory
    [("c.toml", .file (.text <|
        "[rules.max_lines_per_file]\nenabled = true\n" ++
        "[[rules.max_lines_per_file.exceptions]]\nfile = \"gen/*.dart\"\nwarning = 9\n")),
      ("bin.toml", .file (.bytes [0xff, 0xfe, 0x00])),
      ("sub", .directory [])])]
  workingNames := ["w", "sub"]
  home := none
  settingsDirectory := none

theorem proper_nestedConfigs : nestedConfigs.tree.Proper := by
  simp only [nestedConfigs, FileTree.Proper, FileTree.ProperEntries]
  decide

theorem ofFile_spellings_nested :
    ofFile nestedConfigs ⟨"../c.toml"⟩ = ofFile nestedConfigs ⟨"/w/./sub/..//c.toml"⟩ ∧
    ∃ config, (ofFile nestedConfigs ⟨"../c.toml"⟩).outcome = .ok config ∧
      config.sourceDirectory = some ⟨"/w"⟩ ∧
      config.enabledRules.map (fun r => (r.1, r.2.exceptions.length)) =
        [("max_lines_per_file", 1)] := by
  obtain ⟨hsame, -, -, hdirectory⟩ := ofFile_spellings (p := ⟨"../c.toml"⟩)
    (q := ⟨"/w/./sub/..//c.toml"⟩) proper_nestedConfigs
    (by rfl : nestedConfigs.resolve ⟨"../c.toml"⟩ = .ok ["w", "c.toml"]) (by rfl) (by rfl)
  have hrules : (ofFile nestedConfigs ⟨"../c.toml"⟩).outcome.toOption.map (fun config =>
      config.enabledRules.map fun r => (r.1, r.2.exceptions.length)) =
      some [("max_lines_per_file", 1)] := by decide +kernel
  refine ⟨hsame _ rfl, ?_⟩
  cases hread : (ofFile nestedConfigs ⟨"../c.toml"⟩).outcome with
  | error e =>
    rw [hread] at hrules
    cases hrules
  | ok config =>
    rw [hread] at hrules
    obtain ⟨front, name, directory, hnames, rfl, hsource, -⟩ := hdirectory config hread
    have hcut : ["w"] ++ ["c.toml"] = front ++ [name] := hnames
    obtain ⟨rfl, -⟩ := List.append_inj' hcut rfl
    exact ⟨config, rfl, hsource, Option.some.inj hrules⟩

/-- The error about a file that is no text shows the path as it was written. -/
theorem ofFile_unequal :
    nestedConfigs.tree.Proper ∧
    nestedConfigs.resolve ⟨"/w/sub/../bin.toml"⟩ = .ok ["w", "bin.toml"] ∧
    nestedConfigs.resolve ⟨"/w/bin.toml"⟩ = .ok ["w", "bin.toml"] ∧
    nestedConfigs.isFile ⟨"/w/bin.toml"⟩ = true ∧
    ofFile nestedConfigs ⟨"/w/sub/../bin.toml"⟩ ≠ ofFile nestedConfigs ⟨"/w/bin.toml"⟩ := by
  refine ⟨proper_nestedConfigs, by rfl, by rfl, by rfl, fun hsame => ?_⟩
  have hmessage := congrArg (fun read : Checked Config =>
    match read.outcome with
    | .error e => e.message
    | .ok _ => "") hsame
  exact absurd hmessage (by decide +kernel)

end Config

end SourceAudit
