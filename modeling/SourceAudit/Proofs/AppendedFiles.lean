/-
  SourceAudit/Proofs/AppendedFiles.lean
  =====================================
  **Text added to Dart files.**

  One file tree is another with text added to Dart files when both have the same entries
  everywhere and a content differs only behind its end, in an entry with a Dart name
  (`FileTree.Appended`).  Paths lead to the same places in both (`Workspace.Appended.resolve_eq`)
  and what they find is the same but for such text (`Workspace.Appended.find?_rel`).  No ignore
  file has a Dart name, so walks list the same files (`Workspace.Appended.walk_eq`), and so do
  the packages of files (`Workspace.Appended.included_iff`).  A file that can be read can still
  be read, with more text at most (`Workspace.Appended.readText_ok`).
-/
import SourceAudit.Proofs.DartFiles
import SourceAudit.Proofs.Gitignore.Erased
import SourceAudit.Proofs.WrittenFiles

namespace SourceAudit

open FileTree (resolveStep)

/-! ### Adding text -/

/-- The content with a text behind it. -/
def Content.append (content : Content) (text : String) : Content :=
  match content with
  | .text s => .text (s ++ text)
  | .bytes raw => .ofBytes (raw ++ utf8 text)

namespace FileTree

mutual

/-- The second tree is the first with text added to Dart files.  The name is that of the entry
    where the trees lie. -/
inductive Appended : String → FileTree → FileTree → Prop
  | kept {name : String} {content : Content} : Appended name (.file content) (.file content)
  | longer {name : String} {content : Content} (hname : Language.dart.owns ⟨name⟩ = true)
      (text : String) : Appended name (.file content) (.file (content.append text))
  | directory {name : String} {entries entries' : List (String × FileTree)}
      (hentries : AppendedEntries entries entries') :
      Appended name (.directory entries) (.directory entries')

inductive AppendedEntries : List (String × FileTree) → List (String × FileTree) → Prop
  | nil : AppendedEntries [] []
  | cons {name : String} {tree tree' : FileTree} {rest rest' : List (String × FileTree)}
      (htree : Appended name tree tree') (hrest : AppendedEntries rest rest') :
      AppendedEntries ((name, tree) :: rest) ((name, tree') :: rest')

end

theorem AppendedEntries.lookup {entries entries' : List (String × FileTree)}
    (h : AppendedEntries entries entries') (name : String) :
    Option.Rel (Appended name) (entries.lookup name) (entries'.lookup name) := by
  induction entries generalizing entries' with
  | nil =>
    cases h
    exact .none
  | cons e rest ih =>
    cases h with
    | @cons first tree tree' _ rest' htree hrest =>
      rw [List.lookup_cons, List.lookup_cons]
      by_cases hname : name = first
      · subst hname
        simpa using Option.Rel.some htree
      · rw [beq_false_of_ne hname]
        exact ih hrest

namespace Appended

variable {name : String} {tree tree' : FileTree}

theorem isDirectory_eq (h : Appended name tree tree') : tree'.isDirectory = tree.isDirectory := by
  cases h <;> rfl

/-- A directory is so under every name. -/
theorem renamed {other : String} (h : Appended name tree tree')
    (hname : tree.isDirectory = false → other = name) : Appended other tree tree' := by
  cases h with
  | kept => exact .kept
  | longer hdart text => exact hname rfl ▸ .longer hdart text
  | directory hentries => exact .directory hentries

theorem at? (h : Appended name tree tree') (names : List String) :
    Option.Rel (Appended (names.getLastD name)) (tree.at? names) (tree'.at? names) := by
  induction names generalizing name tree tree' with
  | nil => exact .some h
  | cons first rest ih =>
    have hentry : Option.Rel (Appended first) (tree.entry? first) (tree'.entry? first) := by
      cases h with
      | kept => exact .none
      | longer => exact .none
      | directory hentries => exact hentries.lookup first
    rw [FileTree.at?, FileTree.at?]
    generalize tree.entry? first = entry at hentry
    generalize tree'.entry? first = entry' at hentry
    cases hentry with
    | none => exact .none
    | some hinner =>
      rw [List.getLastD_cons]
      exact ih hinner

theorem resolveStep_eq (h : Appended name tree tree') (names : List String) (segment : String) :
    resolveStep tree' names segment = resolveStep tree names segment := by
  have hat := h.at? names
  unfold resolveStep
  generalize tree.at? names = found at hat
  generalize tree'.at? names = found' at hat
  cases hat with
  | none => rfl
  | some hfound =>
    cases hfound with
    | kept => rfl
    | longer => rfl
    | @directory _ entries entries' hentries =>
      have hsome : (entries'.lookup segment).isSome = (entries.lookup segment).isSome := by
        have hentry := hentries.lookup segment
        generalize entries.lookup segment = entry at hentry
        generalize entries'.lookup segment = entry' at hentry
        cases hentry with
        | none => rfl
        | some _ => rfl
      simp only [hsome]

end Appended

end FileTree

/-! ### Workspaces -/

namespace Workspace

theorem getLast?_of_resolve {w : Workspace} {p : Path} {names : List String} {content : Content}
    (hresolve : w.resolve p = .ok names) (hfile : w.tree.at? names = some (.file content)) :
    names.getLast? = p.segments.getLast? := by
  rw [resolve, FileTree.resolve] at hresolve
  split at hresolve
  · cases hresolve
  · exact (FileTree.getLast?_of_steps hresolve (Path.segments_ne_nil p) hfile).symm

theorem readText_eq_ok_iff_find? {w : Workspace} {p : Path} {s : String} :
    w.readText p = .ok s ↔ w.find? p = some (.file (.text s)) := by
  rw [readText_eq_ok_iff, find?]
  cases w.resolve p with
  | error e => simp
  | ok names => simp

/-- The second workspace is the first with text added to Dart files. -/
def Appended (w w' : Workspace) : Prop :=
  ∃ tree, FileTree.Appended "" w.tree tree ∧ w' = { w with tree := tree }

namespace Appended

variable {w w' : Workspace} (h : w.Appended w')

include h

theorem resolve_eq (p : Path) : w'.resolve p = w.resolve p := by
  obtain ⟨tree, htree, rfl⟩ := h
  have hstep : resolveStep tree = resolveStep w.tree := by
    funext names segment
    exact htree.resolveStep_eq names segment
  simp only [resolve, FileTree.resolve, hstep]

theorem canonical_eq (p : Path) : w'.canonical p = w.canonical p := by
  rw [canonical, canonical, h.resolve_eq]

/-- A path finds the same in both but for text behind the end of a Dart file. -/
theorem find?_rel (p : Path) :
    Option.Rel (FileTree.Appended (p.segments.getLastD "")) (w.find? p) (w'.find? p) := by
  have hresolve := h.resolve_eq p
  obtain ⟨tree, htree, rfl⟩ := h
  rw [find?, find?, hresolve]
  cases hnames : w.resolve p with
  | error e => exact .none
  | ok names =>
    have hat := htree.at? names
    dsimp only
    generalize hfound : w.tree.at? names = found at hat
    generalize tree.at? names = found' at hat
    cases hat with
    | none => exact .none
    | @some inner _ hinner =>
      refine .some (hinner.renamed ?_)
      intro hfile
      cases inner with
      | directory entries => cases hfile
      | file content =>
        rw [List.getLastD_eq_getLast?, List.getLastD_eq_getLast?, getLast?_of_resolve hnames hfound]

theorem isFile_eq (p : Path) : w'.isFile p = w.isFile p := by
  have hfind := h.find?_rel p
  unfold isFile
  generalize w.find? p = found at hfind
  generalize w'.find? p = found' at hfind
  cases hfind with
  | none => rfl
  | some hfound => cases hfound <;> rfl

theorem isDirectory_eq (p : Path) : w'.isDirectory p = w.isDirectory p := by
  have hfind := h.find?_rel p
  unfold isDirectory
  generalize w.find? p = found at hfind
  generalize w'.find? p = found' at hfind
  cases hfind with
  | none => rfl
  | some hfound => cases hfound <;> rfl

/-- A file that can be read still can, and its text is the same if its name is not a Dart one. -/
theorem readText_ok {p : Path} {s : String} (hread : w.readText p = .ok s) :
    ∃ text, w'.readText p = .ok (s ++ text) ∧
      (Language.dart.owns ⟨p.segments.getLastD ""⟩ = false → text = "") := by
  rw [readText_eq_ok_iff_find?] at hread
  have hfind := h.find?_rel p
  rw [hread] at hfind
  generalize hfound : w'.find? p = found' at hfind
  cases hfind with
  | some hinner =>
    cases hinner with
    | kept =>
      refine ⟨"", readText_eq_ok_iff_find?.mpr ?_, fun _ => rfl⟩
      rw [hfound, String.append_empty]
    | longer hname text =>
      refine ⟨text, readText_eq_ok_iff_find?.mpr hfound, ?_⟩
      intro hother
      rw [hother] at hname
      cases hname

end Appended

end Workspace

/-! ### Writing -/

namespace FileTree

mutual

theorem Appended.refl (name : String) : (tree : FileTree) → Appended name tree tree
  | .file _ => .kept
  | .directory entries => .directory (AppendedEntries.refl entries)

theorem AppendedEntries.refl :
    (entries : List (String × FileTree)) → AppendedEntries entries entries
  | [] => .nil
  | (name, tree) :: rest => .cons (Appended.refl name tree) (AppendedEntries.refl rest)

end

theorem AppendedEntries.of_put {entries : List (String × FileTree)} {name : String}
    {tree tree' : FileTree} (hfound : entries.lookup name = some tree)
    (htree : Appended name tree tree') :
    AppendedEntries entries (Entries.put name tree' entries) := by
  induction entries with
  | nil => cases hfound
  | cons e rest ih =>
    obtain ⟨first, inner⟩ := e
    rw [Entries.put]
    by_cases hname : first = name
    · subst hname
      obtain rfl : inner = tree := by simpa using hfound
      rw [if_pos rfl]
      exact .cons htree (.refl rest)
    · rw [List.lookup_cons, beq_false_of_ne (Ne.symm hname)] at hfound
      rw [if_neg hname]
      exact .cons (.refl first inner) (ih hfound)

/-- A longer text in the place of a Dart file. -/
theorem Appended.of_put {name : String} {tree : FileTree} {names : List String}
    {content : Content} (hfile : tree.at? names = some (.file content))
    (hname : Language.dart.owns ⟨names.getLastD name⟩ = true) (text : String) :
    Appended name tree (put (.file (content.append text)) names tree) := by
  induction names generalizing name tree with
  | nil =>
    obtain rfl := Option.some.inj hfile
    exact .longer hname text
  | cons first rest ih =>
    rw [FileTree.at?, Option.bind_eq_some_iff] at hfile
    obtain ⟨inner, hentry, hfile⟩ := hfile
    cases tree with
    | file content => cases hentry
    | directory entries =>
      rw [put, hentry, Option.getD_some]
      exact .directory (.of_put hentry (ih hfile (by rwa [List.getLastD_cons] at hname)))

end FileTree

/-- Writing the text of a Dart file with more text behind it adds text. -/
theorem Workspace.appended_of_writeText {w w' : Workspace} {p : Path} {s text : String}
    (hread : w.readText p = .ok s) (hname : Language.dart.owns ⟨p.segments.getLastD ""⟩ = true)
    (hwritten : w.writeText p (s ++ text) = .ok w') : w.Appended w' := by
  obtain ⟨names, hresolve, hfile⟩ := readText_eq_ok_iff.mp hread
  rw [writeText, hresolve] at hwritten
  simp only [hfile] at hwritten
  obtain rfl := Except.ok.inj hwritten
  rw [List.getLastD_eq_getLast?, ← getLast?_of_resolve hresolve hfile,
    ← List.getLastD_eq_getLast?] at hname
  exact ⟨_, FileTree.Appended.of_put hfile hname text, rfl⟩

/-! ### Walks -/

namespace FileTree.Appended

variable {name : String} {tree tree' : FileTree}

/-- Lines are read from files that have no Dart names. -/
theorem ofTree_eq (h : Appended name tree tree') (names : List String)
    (hother : Language.dart.owns ⟨names.getLastD name⟩ = false) :
    IgnorePattern.ofTree names tree' = IgnorePattern.ofTree names tree := by
  have hat := h.at? names
  unfold IgnorePattern.ofTree
  generalize tree.at? names = found at hat
  generalize tree'.at? names = found' at hat
  cases hat with
  | none => rfl
  | some hfound =>
    cases hfound with
    | kept => rfl
    | longer hname =>
      rw [hother] at hname
      cases hname
    | directory => rfl

theorem ofDirectory_eq (h : Appended name tree tree') (git : Bool) (path : Path) :
    IgnoreLayer.ofDirectory git path tree' = IgnoreLayer.ofDirectory git path tree := by
  have hdot : Language.dart.owns ⟨".ignore"⟩ = false := by decide
  have hgit : Language.dart.owns ⟨".gitignore"⟩ = false := by decide
  have hexclude : Language.dart.owns ⟨"exclude"⟩ = false := by decide
  unfold IgnoreLayer.ofDirectory
  rw [h.ofTree_eq [".ignore"] hdot, h.ofTree_eq [".gitignore"] hgit,
    h.ofTree_eq [".git", "info", "exclude"] hexclude]

end FileTree.Appended

namespace Discovery

open FileTree (Appended AppendedEntries)

mutual

theorem filesAt_appended {git : Bool} {name : String} {stack : IgnoreStack} {path : Path}
    {tree tree' : FileTree} : Appended name tree tree' →
      filesAt git stack path tree' = filesAt git stack path tree
  | .kept => rfl
  | .longer _ _ => by rw [filesAt, filesAt]
  | .directory hentries => by
    have htree : Appended name _ _ := .directory hentries
    have hlayer := htree.ofDirectory_eq git path
    rw [filesAt, filesAt, hlayer]
    exact filesIn_appended hentries

theorem filesIn_appended {git : Bool} {stack : IgnoreStack} {path : Path}
    {entries entries' : List (String × FileTree)} : AppendedEntries entries entries' →
      filesIn git stack path entries' = filesIn git stack path entries
  | .nil => rfl
  | .cons htree hrest => by
    rw [filesIn, filesIn, htree.isDirectory_eq, filesAt_appended htree, filesIn_appended hrest]

end

end Discovery

namespace Workspace.Appended

variable {w w' : Workspace} (h : w.Appended w')

include h

theorem userLayer_eq (git : Bool) : w'.userLayer git = w.userLayer git := by
  have hlines (d : Path) :
      (w'.find? (d.child ".config/git/ignore")).elim [] IgnorePattern.ofFile =
        (w.find? (d.child ".config/git/ignore")).elim [] IgnorePattern.ofFile := by
    have hlast : (d.child ".config/git/ignore").segments.getLastD "" = "ignore" := by
      rw [List.getLastD_eq_getLast?, Path.child, Path.segments_join_getLast?]
      decide
    have hfind := h.find?_rel (d.child ".config/git/ignore")
    rw [hlast] at hfind
    generalize w.find? _ = found at hfind
    generalize w'.find? _ = found' at hfind
    cases hfind with
    | none => rfl
    | some hfound =>
      have hother : Language.dart.owns ⟨"ignore"⟩ = false := by decide
      exact hfound.ofTree_eq [] hother
  have hhome : w'.home = w.home ∧ w'.workingNames = w.workingNames := by
    obtain ⟨tree, -, rfl⟩ := h
    exact ⟨rfl, rfl⟩
  unfold userLayer workingDirectory
  rw [hhome.1, hhome.2]
  cases w.home with
  | none => rfl
  | some d => simp only [Option.bind_some, hlines]

theorem ignoreStack_eq (git : Bool) (root canonical : Path) :
    w'.ignoreStack git root canonical = w.ignoreStack git root canonical := by
  have houter (d : Path) : IgnoreLayer.ofDirectory git d ((w'.find? d).getD .empty) =
      IgnoreLayer.ofDirectory git d ((w.find? d).getD .empty) := by
    have hfind := h.find?_rel d
    generalize w.find? d = found at hfind
    generalize w'.find? d = found' at hfind
    cases hfind with
    | none => rfl
    | some hfound => exact hfound.ofDirectory_eq git d
  unfold ignoreStack
  simp only [houter, h.userLayer_eq]

theorem walk_eq (git : Bool) (directory : Path) :
    Discovery.walk w' git directory = Discovery.walk w git directory := by
  have hfind := h.find?_rel directory
  unfold Discovery.walk
  simp only [h.canonical_eq, h.ignoreStack_eq]
  generalize w.find? directory = found at hfind
  generalize w'.find? directory = found' at hfind
  cases hfind with
  | none => rfl
  | some hfound =>
    cases w.canonical directory with
    | error e => rfl
    | ok canonical =>
      dsimp only
      rw [Discovery.filesAt_appended hfound]

/-- The same files are below a directory. -/
theorem included_iff {directory f : Path} {excludes : List Glob} :
    DartPackage.Included w' directory excludes f ↔ DartPackage.Included w directory excludes f := by
  constructor
  · rintro ⟨hdirectory, hlisted, hkept⟩
    rw [h.isDirectory_eq] at hdirectory
    rw [h.walk_eq] at hlisted
    exact ⟨hdirectory, hlisted, hkept⟩
  · rintro ⟨hdirectory, hlisted, hkept⟩
    rw [← h.isDirectory_eq] at hdirectory
    rw [← h.walk_eq] at hlisted
    exact ⟨hdirectory, hlisted, hkept⟩

theorem root?_eq (start : Path) : DartPackage.root? w' start = DartPackage.root? w start := by
  unfold DartPackage.root?
  simp only [h.isFile_eq]

end Workspace.Appended

end SourceAudit
