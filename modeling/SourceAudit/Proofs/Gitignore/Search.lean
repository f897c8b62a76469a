/-
  SourceAudit/Proofs/Gitignore/Search.lean
  ========================================
  **A search that does not look at `.gitignore` files finds the same without them.**

  With the files of git switched off, the ignore lines of a directory are those of its
  `.ignore` file, and these are the same in the erased tree (`ofDirectory_erased`).
  The walks differ in the `.gitignore` files themselves, which belong to no language
  (`owns_of_gitignoreName`), so the files of a language are the same, in the same order
  (`walk_erased`), and so is the answer of a search (`discover_erased`).
-/
import SourceAudit.Proofs.Gitignore.Erased

namespace SourceAudit

open FileTree (gitignoreName isGitignore erasedEntries)

/-! ### Paths of a language -/

theorem isPlain_gitignoreName : Path.IsPlain gitignoreName := by decide

theorem fileName?_of_namesGitignore {p : Path} (hp : p.NamesGitignore) :
    p.fileName? = some gitignoreName := by
  rw [Path.fileName?_eq_some_iff]
  exact Path.components_getLast?_of_segments isPlain_gitignoreName hp

/-- A path called `.gitignore` has no extension. -/
theorem owns_of_gitignoreName {l : Language} {p : Path} (hp : p.fileName? = some gitignoreName) :
    l.owns p = false := by
  have hextension : Path.nameExtension? gitignoreName = none := by decide
  rw [Language.owns, Path.extension?, hp, Option.bind_some, hextension]
  rfl

theorem not_namesGitignore_of_owns {l : Language} {p : Path} (howns : l.owns p = true) :
    ¬ p.NamesGitignore := by
  intro hp
  rw [owns_of_gitignoreName (fileName?_of_namesGitignore hp)] at howns
  cases howns

theorem not_namesGitignore_join {base p : Path} (hp : ¬ p.NamesGitignore) :
    ¬ (base.join p).NamesGitignore := by
  rw [Path.NamesGitignore, Path.segments_join_getLast?]
  exact hp

theorem not_namesGitignore_child (p : Path) {name : String} (hname : Path.IsPlain name)
    (hother : name ≠ gitignoreName) : ¬ (p.child name).NamesGitignore := by
  apply not_namesGitignore_join
  rw [Path.NamesGitignore, Path.segments_plain hname]
  simpa using hother

theorem owns_folded {l : Language} {p : Path} (howns : l.owns p = true) :
    l.owns p.folded = true := by
  unfold Language.owns Path.extension? at howns ⊢
  cases hname : p.fileName? with
  | none => simp [hname] at howns
  | some name =>
    rw [Path.fileName?_folded hname]
    rwa [hname] at howns

/-! ### Ignore lines -/

theorem IgnorePattern.ofTree_erased {tree : FileTree} (hproper : tree.Proper) {name : String}
    (hother : name ≠ gitignoreName) :
    IgnorePattern.ofTree [name] tree.erased = IgnorePattern.ofTree [name] tree := by
  unfold IgnorePattern.ofTree
  rw [FileTree.at?_erased hproper]
  cases tree.at? [name] with
  | none => rfl
  | some inner =>
    have hkept : isGitignore name inner = false := by simp [isGitignore, hother]
    cases inner <;> simp [Option.filter_some, hkept, FileTree.erased, IgnorePattern.ofFile]

/-- Without the files of git, only the `.ignore` file of a directory counts. -/
theorem IgnoreLayer.ofDirectory_erased {tree : FileTree} (hproper : tree.Proper) (path : Path) :
    IgnoreLayer.ofDirectory false path tree.erased = IgnoreLayer.ofDirectory false path tree := by
  unfold IgnoreLayer.ofDirectory
  rw [IgnorePattern.ofTree_erased hproper (by decide)]
  rfl

theorem Workspace.ignoreStack_erased {w : Workspace} (hproper : w.tree.Proper)
    (root canonical : Path) :
    w.erased.ignoreStack false root canonical = w.ignoreStack false root canonical := by
  have houter (d : Path) :
      IgnoreLayer.ofDirectory false d ((w.erased.find? d).getD .empty) =
        IgnoreLayer.ofDirectory false d ((w.find? d).getD .empty) := by
    rcases Workspace.find?_erased_or hproper d with hsame | ⟨-, ⟨content, hfile⟩, hnone⟩
    · rw [hsame]
      cases hfind : w.find? d with
      | none => rfl
      | some tree =>
        exact IgnoreLayer.ofDirectory_erased (Discovery.proper_of_find? hproper hfind) d
    · rw [hfile, hnone]
      rfl
  unfold Workspace.ignoreStack
  simp only [houter]
  rfl

namespace Discovery

/-! ### Walks -/

mutual

/-- The files of a language in a walk are the same in the erased tree. -/
theorem filesAt_erased (l : Language) (stack : IgnoreStack) (path : Path) :
    (tree : FileTree) → tree.Proper →
      (filesAt false stack path tree.erased).filter l.owns =
        (filesAt false stack path tree).filter l.owns
  | .file content, _ => by rw [FileTree.erased]
  | .directory entries, hproper => by
    have hlayer := IgnoreLayer.ofDirectory_erased hproper path
    rw [FileTree.erased] at hlayer ⊢
    rw [FileTree.Proper] at hproper
    rw [filesAt, filesAt, hlayer]
    exact filesIn_erased l _ path entries hproper.2

theorem filesIn_erased (l : Language) (stack : IgnoreStack) (path : Path) :
    (entries : List (String × FileTree)) → FileTree.ProperEntries entries →
      (filesIn false stack path (erasedEntries entries)).filter l.owns =
        (filesIn false stack path entries).filter l.owns
  | [], _ => by rw [FileTree.erasedEntries]
  | (name, tree) :: rest, hproper => by
    obtain ⟨hname, htree, hrest⟩ := hproper
    have hrec := filesIn_erased l stack path rest hrest
    rw [FileTree.erasedEntries]
    cases hgit : isGitignore name tree with
    | true =>
      obtain ⟨hsame, hfile⟩ := Bool.and_eq_true_iff.mp hgit
      obtain rfl : name = gitignoreName := by simpa using hsame
      cases tree with
      | directory _ => simp [FileTree.isDirectory] at hfile
      | file content =>
        -- the entry gives at most its own path
        have howns : l.owns (path.child gitignoreName) = false :=
          owns_of_gitignoreName (Path.fileName?_child path hname)
        rw [if_pos rfl, hrec, filesIn, List.filter_append, filesAt]
        split <;> simp [howns]
    | false =>
      have hinside := filesAt_erased l stack (path.child name) tree htree
      rw [if_neg (by simp), filesIn, filesIn, List.filter_append, List.filter_append, hrec,
        FileTree.isDirectory_erased]
      split
      · rfl
      · rw [hinside]

end

/-! ### Searches -/

theorem walk_erased {w : Workspace} (hproper : w.tree.Proper) {directory : Path}
    (hdirectory : w.isDirectory directory = true) (l : Language) :
    (walk w.erased false directory).filter l.owns = (walk w false directory).filter l.owns := by
  apply Path.Increasing.eq_of_mem_iff
  · exact (walk_increasing hproper.erased false directory).filter _
  · exact (walk_increasing hproper false directory).filter _
  intro f
  rw [Workspace.isDirectory] at hdirectory
  split at hdirectory
  · next entries hfind =>
    have hresolve := Workspace.resolve_erased_directory hproper hfind
    have hsame : w.erased.find? directory = (w.find? directory).map FileTree.erased := by
      rcases Workspace.find?_erased_or hproper directory with hsame | ⟨-, ⟨content, hfile⟩, -⟩
      · exact hsame
      · rw [hfind] at hfile
        cases hfile
    have hfiles (canonical : Path) :=
      filesAt_erased l (w.ignoreStack false directory canonical) directory _
        (proper_of_find? hproper hfind)
    unfold walk Workspace.canonical
    rw [hresolve, hsame, hfind]
    cases (w.resolve directory).map Path.ofNames with
    | error e => rfl
    | ok canonical =>
      have hfiles' := congrArg (fun files => f ∈ files) (hfiles canonical)
      simp only [List.mem_filter] at hfiles'
      simp only [Option.map_some, Workspace.ignoreStack_erased hproper, List.mem_filter,
        List.mem_mergeSort]
      exact hfiles'.to_iff
  · cases hdirectory

/-- A search with the files of git switched off gives the same files in the erased tree. -/
theorem discover_erased {w : Workspace} (hproper : w.tree.Proper) {d : Discovery}
    (hgit : d.respectGitignore = false) (path : Path) :
    (d.discover w.erased path).value.toOption = (d.discover w path).value.toOption := by
  cases hdirectory : w.isDirectory path with
  | true =>
    have herased := (Workspace.isDirectory_erased hproper path).trans hdirectory
    rw [discover_directory d hdirectory, discover_directory d herased]
    unfold candidates
    rw [hgit, walk_erased hproper hdirectory]
  | false =>
    rcases Workspace.find?_erased_or hproper path with hsame | ⟨hname, ⟨content, hfile⟩, hnone⟩
    · unfold discover
      rw [hsame]
      cases hfind : w.find? path with
      | none => rfl
      | some tree =>
        cases tree with
        | file content => simp [FileTree.erased]
        | directory entries => simp [Workspace.isDirectory, hfind] at hdirectory
    · have howns : d.language.owns path = false :=
        owns_of_gitignoreName (fileName?_of_namesGitignore hname)
      simp [discover, hfile, hnone, howns, Except.toOption]

/-- A search keeps the settings it was read with. -/
theorem read_settings {l : Language} {patterns : List String} {git : Bool} {d : Discovery}
    (hread : Discovery.read l patterns git = .ok d) :
    d.language = l ∧ d.respectGitignore = git := by
  unfold Discovery.read at hread
  cases hglobs : patterns.mapM readExclude with
  | error e =>
    rw [hglobs] at hread
    cases hread
  | ok globs =>
    rw [hglobs] at hread
    cases hread
    exact ⟨rfl, rfl⟩

/-- A search gives files of its language. -/
theorem owns_of_discover {w : Workspace} {d : Discovery} {path : Path} {files : List Path}
    (hfiles : (d.discover w path).value = .ok files) {f : Path} (hf : f ∈ files) :
    d.language.owns f = true := by
  unfold discover at hfiles
  split at hfiles
  · cases hfiles
  · next content hfind =>
    by_cases howns : d.language.owns path = true
    · rw [Logged.value_pure, if_pos howns] at hfiles
      cases hfiles
      rw [List.mem_singleton] at hf
      rwa [hf]
    · rw [Logged.value_pure, if_neg howns] at hfiles
      cases hfiles
  · next entries hfind =>
    cases hfiles
    have hcandidate := (List.mem_filter.mp hf).1
    exact (List.mem_filter.mp hcandidate).2

end Discovery

end SourceAudit
