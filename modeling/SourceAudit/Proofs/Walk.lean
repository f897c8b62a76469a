/-
  SourceAudit/Proofs/Walk.lean
  ============================
  **What a walk lists, and in which order.**

  A file system names the entries of a directory plainly and each once
  (`FileTree.Proper`).  In such a tree a walk meets a file along the one chain of
  entries that leads to it, and the names of that chain are what the path of the file
  has behind the path of the directory (`Listed.below_directory`).  Two files of a
  walk therefore differ in their components, and sorting gives a list that increases
  strictly.

  * `mem_filesAt_iff`: a walk lists the files that chains of kept entries lead to.
  * `walk_increasing`: it lists them in path order, each once.
-/
import SourceAudit.Proofs.Paths
import SourceAudit.Discovery

namespace SourceAudit

/-! ### Proper trees -/

namespace FileTree

mutual

/-- Every directory names its entries plainly and each once. -/
def Proper : FileTree → Prop
  | .file _ => True
  | .directory entries => (entries.map Prod.fst).Nodup ∧ ProperEntries entries

/-- The entries have plain names and are proper themselves. -/
def ProperEntries : List (String × FileTree) → Prop
  | [] => True
  | (name, tree) :: rest => Path.IsPlain name ∧ tree.Proper ∧ ProperEntries rest

end

theorem ProperEntries.of_mem {entries : List (String × FileTree)} {name : String}
    {tree : FileTree} (hproper : ProperEntries entries) (hmem : (name, tree) ∈ entries) :
    Path.IsPlain name ∧ tree.Proper := by
  induction entries with
  | nil => simp at hmem
  | cons e rest ih =>
    obtain ⟨hname, htree, hrest⟩ := hproper
    rcases List.mem_cons.mp hmem with rfl | hmem
    · exact ⟨hname, htree⟩
    · exact ih hrest hmem

/-- What lies inside a proper tree is proper. -/
theorem Proper.at {tree inner : FileTree} {names : List String} (hproper : tree.Proper)
    (hat : tree.at? names = some inner) : inner.Proper := by
  induction names generalizing tree with
  | nil =>
    obtain rfl : tree = inner := by simpa [at?] using hat
    exact hproper
  | cons name rest ih =>
    rw [at?, Option.bind_eq_some_iff] at hat
    obtain ⟨entry, hentry, hat⟩ := hat
    cases tree with
    | file content => simp [ entry?, entries] at hentry
    | directory entries =>
      rw [Proper] at hproper
      exact ih (hproper.2.of_mem (Entries.mem_of_lookup hentry)).2 hat

end FileTree

namespace Discovery

/-! ### The files of a walk -/

/-- A walk of `tree` at `path` comes to the file `f` by entries that no ignore file takes out. -/
inductive Listed (git : Bool) : IgnoreStack → Path → FileTree → Path → Prop
  | here {stack path content} : Listed git stack path (.file content) path
  | inside {stack path entries name tree f}
      (hmem : (name, tree) ∈ entries)
      (hkept : (stack.push (IgnoreLayer.ofDirectory git path (.directory entries))).ignores
        (path.child name) tree.isDirectory = false)
      (hlisted : Listed git (stack.push (IgnoreLayer.ofDirectory git path (.directory entries)))
        (path.child name) tree f) :
      Listed git stack path (.directory entries) f

theorem mem_filesIn {git : Bool} {stack : IgnoreStack} {path f : Path}
    {entries : List (String × FileTree)} :
    f ∈ filesIn git stack path entries ↔ ∃ name tree, (name, tree) ∈ entries ∧
      stack.ignores (path.child name) tree.isDirectory = false ∧
      f ∈ filesAt git stack (path.child name) tree := by
  induction entries with
  | nil => simp [filesIn]
  | cons e rest ih =>
    obtain ⟨name, tree⟩ := e
    rw [filesIn, List.mem_append, ih]
    constructor
    · rintro (hfirst | ⟨name', tree', hmem, hkept, hf⟩)
      · cases hignored : stack.ignores (path.child name) tree.isDirectory with
        | true => simp [hignored] at hfirst
        | false =>
          rw [if_neg (by simp [hignored])] at hfirst
          exact ⟨name, tree, List.mem_cons_self .., hignored, hfirst⟩
      · exact ⟨name', tree', List.mem_cons_of_mem _ hmem, hkept, hf⟩
    · rintro ⟨name', tree', hmem, hkept, hf⟩
      rcases List.mem_cons.mp hmem with hsame | hmem
      · cases hsame
        exact .inl (by rwa [if_neg (by simp [hkept])])
      · exact .inr ⟨name', tree', hmem, hkept, hf⟩

theorem listed_of_mem {git : Bool} {stack : IgnoreStack} {path f : Path} :
    (tree : FileTree) → f ∈ filesAt git stack path tree → Listed git stack path tree f
  | .file content, hf => by
    rw [filesAt, List.mem_singleton] at hf
    subst hf
    exact .here
  | .directory entries, hf => by
    rw [filesAt, mem_filesIn] at hf
    obtain ⟨name, tree, hmem, hkept, hf⟩ := hf
    have hsmaller : sizeOf tree < sizeOf entries := by
      have := List.sizeOf_lt_of_mem hmem
      simp at this
      omega
    exact .inside hmem hkept (listed_of_mem tree hf)

theorem mem_filesAt_iff {git : Bool} {stack : IgnoreStack} {path f : Path} {tree : FileTree} :
    f ∈ filesAt git stack path tree ↔ Listed git stack path tree f := by
  constructor
  · exact listed_of_mem tree
  · intro hlisted
    induction hlisted with
    | here => simp [filesAt]
    | inside hmem hkept _ ih =>
      rw [filesAt, mem_filesIn]
      exact ⟨_, _, hmem, hkept, ih⟩

/-! ### Where the files of a walk lie -/

/-- The path of a file in a walk has the names behind the path of the directory that lead to
    the file in the tree. -/
theorem Listed.below_directory {git : Bool} {stack : IgnoreStack} {path f : Path}
    {tree : FileTree} (hlisted : Listed git stack path tree f) (hproper : tree.Proper) :
    ∃ names content, (∀ n ∈ names, Path.IsPlain n) ∧ tree.at? names = some (.file content) ∧
      f.components = path.components ++ names.map .name := by
  induction hlisted with
  | here => exact ⟨[], _, by simp, rfl, by simp⟩
  | @inside stack path entries name tree f hmem hkept hlisted ih =>
    rw [FileTree.Proper] at hproper
    obtain ⟨hname, htree⟩ := hproper.2.of_mem hmem
    obtain ⟨names, content, hnames, hat, hcomponents⟩ := ih htree
    refine ⟨name :: names, content, ?_, ?_, ?_⟩
    · simpa [hname] using hnames
    · rw [FileTree.at?, FileTree.entry?, FileTree.entries, Entries.lookup_of_mem hproper.1 hmem]
      exact hat
    · rw [hcomponents, Path.components_child path hname, List.map_cons, List.append_assoc,
        List.singleton_append]

/-- A file of one entry, seen from the directory: its first name is that of the entry. -/
theorem components_of_mem_entry {git : Bool} {stack : IgnoreStack} {path f : Path} {name : String}
    {tree : FileTree} (hname : Path.IsPlain name) (hproper : tree.Proper)
    (hf : f ∈ filesAt git stack (path.child name) tree) :
    ∃ names : List String,
      f.components = path.components ++ .name name :: names.map .name := by
  obtain ⟨names, -, -, -, hcomponents⟩ := (listed_of_mem tree hf).below_directory hproper
  refine ⟨names, ?_⟩
  rw [hcomponents, Path.components_child path hname, List.append_assoc, List.singleton_append]

mutual

theorem filesAt_apart {git : Bool} {stack : IgnoreStack} {path : Path} :
    (tree : FileTree) → tree.Proper →
      (filesAt git stack path tree).Pairwise fun p q => p.components ≠ q.components
  | .file content, _ => by
    rw [filesAt]
    exact List.pairwise_singleton ..
  | .directory entries, hproper => by
    rw [FileTree.Proper] at hproper
    rw [filesAt]
    exact filesIn_apart entries hproper.1 hproper.2

theorem filesIn_apart {git : Bool} {stack : IgnoreStack} {path : Path} :
    (entries : List (String × FileTree)) → (entries.map Prod.fst).Nodup →
      FileTree.ProperEntries entries →
      (filesIn git stack path entries).Pairwise fun p q => p.components ≠ q.components
  | [], _, _ => by
    rw [filesIn]
    exact List.Pairwise.nil
  | (name, tree) :: rest, hnodup, hproper => by
    obtain ⟨hname, htree, hrest⟩ := hproper
    obtain ⟨hfresh, hnodup⟩ := List.nodup_cons.mp hnodup
    rw [filesIn, List.pairwise_append]
    refine ⟨?_, filesIn_apart rest hnodup hrest, ?_⟩
    · split
      · exact List.Pairwise.nil
      · exact filesAt_apart tree htree
    · -- files of different entries differ in the name of the entry
      intro f hf g hg hsame
      split at hf
      · simp at hf
      · obtain ⟨names, hcomponents⟩ := components_of_mem_entry hname htree hf
        obtain ⟨name', tree', hmem, -, hg⟩ := mem_filesIn.mp hg
        obtain ⟨hname', htree'⟩ := hrest.of_mem hmem
        obtain ⟨names', hcomponents'⟩ := components_of_mem_entry hname' htree' hg
        rw [hcomponents, hcomponents'] at hsame
        have hnames := (List.cons.inj (List.append_cancel_left hsame)).1
        obtain rfl : name = name' := Path.Component.name.inj hnames
        exact hfresh (List.mem_map.mpr ⟨(name, tree'), hmem, rfl⟩)

end

/-! ### The whole walk -/

theorem proper_of_find? {w : Workspace} (hproper : w.tree.Proper) {path : Path} {tree : FileTree}
    (hfind : w.find? path = some tree) : tree.Proper := by
  rw [Workspace.find?] at hfind
  split at hfind
  · exact hproper.at hfind
  · cases hfind

theorem mem_walk_iff {w : Workspace} {git : Bool} {directory f : Path} :
    f ∈ walk w git directory ↔ ∃ tree canonical, w.find? directory = some tree ∧
      w.canonical directory = .ok canonical ∧
      Listed git (w.ignoreStack git directory canonical) directory tree f := by
  rw [walk]
  split
  · next tree canonical htree hcanonical =>
    rw [List.mem_mergeSort, mem_filesAt_iff]
    constructor
    · intro hlisted
      exact ⟨tree, canonical, htree, hcanonical, hlisted⟩
    · rintro ⟨tree', canonical', htree', hcanonical', hlisted⟩
      obtain rfl : tree = tree' := Option.some.inj (htree.symm.trans htree')
      obtain rfl : canonical = canonical' := Except.ok.inj (hcanonical.symm.trans hcanonical')
      exact hlisted
  · next hnone =>
    constructor
    · intro hf
      simp at hf
    · rintro ⟨tree, canonical, htree, hcanonical, -⟩
      exact absurd hcanonical (hnone tree canonical htree)

/-- A walk lists its files in path order, each once. -/
theorem walk_increasing {w : Workspace} (hproper : w.tree.Proper) (git : Bool) (directory : Path) :
    Path.Increasing (walk w git directory) := by
  rw [walk]
  split
  · next tree canonical htree hcanonical =>
    exact Path.increasing_mergeSort (filesAt_apart tree (proper_of_find? hproper htree))
  · exact List.Pairwise.nil

/-- Nothing is sorted when the directories name their entries in order. -/
theorem walk_of_sorted {w : Workspace} {git : Bool} {directory canonical : Path}
    {tree : FileTree} (htree : w.find? directory = some tree)
    (hcanonical : w.canonical directory = .ok canonical)
    (hsorted : (filesAt git (w.ignoreStack git directory canonical) directory tree).Pairwise
      fun a b => Path.le a b = true) :
    walk w git directory = filesAt git (w.ignoreStack git directory canonical) directory tree := by
  rw [walk, htree, hcanonical]
  exact List.mergeSort_of_pairwise hsorted

theorem components_of_mem_walk {w : Workspace} (hproper : w.tree.Proper) {git : Bool}
    {directory f : Path} (hf : f ∈ walk w git directory) :
    ∃ names : List String, (∀ n ∈ names, Path.IsPlain n) ∧
      f.components = directory.components ++ names.map .name := by
  obtain ⟨tree, canonical, htree, -, hlisted⟩ := mem_walk_iff.mp hf
  obtain ⟨names, -, hnames, -, hcomponents⟩ :=
    hlisted.below_directory (proper_of_find? hproper htree)
  exact ⟨names, hnames, hcomponents⟩

theorem discover_directory {w : Workspace} {directory : Path} (d : Discovery)
    (hdirectory : w.isDirectory directory = true) :
    (d.discover w directory).value =
      .ok ((d.candidates w directory).filter fun f => !d.excludes directory f) := by
  rw [Workspace.isDirectory] at hdirectory
  split at hdirectory
  · next entries hfind => simp [discover, hfind, inDirectory]
  · cases hdirectory

end Discovery

end SourceAudit
