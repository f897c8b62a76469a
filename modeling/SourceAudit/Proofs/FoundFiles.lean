/-
  SourceAudit/Proofs/FoundFiles.lean
  ==================================
  **The files that a search finds.**

  A walk comes to a file along names, and on the way it asks about each entry the ignore files
  of the directories it went through (`Discovery.Admits`).  So what is listed can be said
  without the walk (`Discovery.listed_iff`), and with it what a search finds: the files below
  the directory that no entry on the way takes out, that have an extension of the language,
  and whose names, written with slashes between them, no exclude pattern denotes
  (`Discovery.mem_found_iff`).

  * `Discovery.finds_exactly`: these files and no others, in path order; the order of the
    patterns does not matter, and more patterns give fewer files.
-/
import Mathlib.Data.List.Infix
import Mathlib.Data.List.TakeWhile
import SourceAudit.Proofs.ExcludePatterns
import SourceAudit.Proofs.Respelled.Below
import SourceAudit.Proofs.Selection

namespace SourceAudit

/-! ### Extensions -/

namespace Path

theorem nameExtension?_of_not_mem {name : String} (hdot : '.' ∉ name.toList) :
    nameExtension? name = none := by
  have hnone : name.toList.reverse.dropWhile (· ≠ '.') = [] := by
    rw [List.dropWhile_eq_nil_iff]
    intro c hc
    rw [decide_eq_true_eq]
    rintro rfl
    exact hdot (List.mem_reverse.mp hc)
  rw [nameExtension?, hnone]

theorem nameExtension?_of_dot (stem : String) {e : String} (hdot : '.' ∉ e.toList) :
    nameExtension? (stem ++ "." ++ e) = if stem = "" then none else some e := by
  have hreverse : (stem ++ "." ++ e).toList.reverse =
      e.toList.reverse ++ '.' :: stem.toList.reverse := by simp
  have hbehind : ∀ c ∈ e.toList.reverse, decide (c ≠ '.') = true := by
    intro c hc
    rw [decide_eq_true_eq]
    rintro rfl
    exact hdot (List.mem_reverse.mp hc)
  have hend : ('.' :: stem.toList.reverse).takeWhile (· ≠ '.') = [] :=
    List.takeWhile_cons_of_neg (by decide)
  have hrest : ('.' :: stem.toList.reverse).dropWhile (· ≠ '.') = '.' :: stem.toList.reverse :=
    List.dropWhile_cons_of_neg (by decide)
  rw [nameExtension?, hreverse, List.takeWhile_append_of_pos hbehind,
    List.dropWhile_append_of_pos hbehind, hend, hrest, List.append_nil, List.reverse_reverse,
    String.ofList_toList]
  cases hfront : stem.toList.reverse with
  | nil =>
    have hempty : stem = "" := by simpa using hfront
    rw [if_pos hempty]
  | cons c front =>
    have hfull : stem ≠ "" := by
      rintro rfl
      cases hfront
    rw [if_neg hfull]

/-- An extension is what stands behind the last dot of a name that does not begin with it. -/
theorem nameExtension?_eq_some_iff {name e : String} : nameExtension? name = some e ↔
    ∃ stem, stem ≠ "" ∧ name = stem ++ "." ++ e ∧ '.' ∉ e.toList := by
  constructor
  · intro he
    by_cases hmem : '.' ∈ name.toList.reverse
    · obtain ⟨behind, front, hcut, hdot⟩ := List.eq_append_cons_of_mem hmem
      have hname : name = String.ofList front.reverse ++ "." ++ String.ofList behind.reverse := by
        rw [← String.toList_inj, ← List.reverse_inj, hcut]
        simp
      rw [hname, nameExtension?_of_dot _ (by simpa using hdot)] at he
      split at he
      · cases he
      · next hstem =>
        obtain rfl := Option.some.inj he
        exact ⟨_, hstem, hname, by simpa using hdot⟩
    · rw [nameExtension?_of_not_mem fun h => hmem (List.mem_reverse.mpr h)] at he
      cases he
  · rintro ⟨stem, hstem, rfl, hdot⟩
    rw [nameExtension?_of_dot stem hdot, if_neg hstem]

end Path

namespace Language

/-- The name has an extension of the language, in whatever case it is written. -/
def HasExtension (l : Language) (name : String) : Prop :=
  ∃ stem e, stem ≠ "" ∧ name = stem ++ "." ++ e ∧ '.' ∉ e.toList ∧
    ∃ known ∈ l.extensions, lowered e = lowered known

theorem lowered_extension {l : Language} {known : String} (hknown : known ∈ l.extensions) :
    lowered known = known := by
  revert known
  cases l <;> decide

theorem owns_below_iff {base : Path} {names : List String} (hnames : ∀ n ∈ names, Path.IsPlain n)
    (hne : names ≠ []) (l : Language) :
    l.owns (base.below names) = true ↔
      ∃ name, names.getLast? = some name ∧ l.HasExtension name := by
  rw [owns, Path.extension?, Path.fileName?_below hnames hne, Option.any_eq_true]
  constructor
  · rintro ⟨e, he, hknown⟩
    obtain ⟨name, hlast, hextension⟩ := Option.bind_eq_some_iff.mp he
    obtain ⟨stem, hstem, hname, hdot⟩ := Path.nameExtension?_eq_some_iff.mp hextension
    have hmem : lowered e ∈ l.extensions := List.contains_iff_mem.mp hknown
    exact ⟨name, hlast, stem, e, hstem, hname, hdot, _, hmem, (lowered_extension hmem).symm⟩
  · rintro ⟨name, hlast, stem, e, hstem, hname, hdot, known, hknown, hsame⟩
    refine ⟨e, Option.bind_eq_some_iff.mpr ⟨name, hlast,
      Path.nameExtension?_eq_some_iff.mpr ⟨stem, hstem, hname, hdot⟩⟩, ?_⟩
    rw [hsame, lowered_extension hknown]
    exact List.contains_iff_mem.mpr hknown

end Language

/-! ### What a walk lists -/

theorem FileTree.at?_entry {entries : List (String × FileTree)} {name : String} {inner : FileTree}
    (hentry : entries.lookup name = some inner) (names : List String) :
    (FileTree.directory entries).at? (name :: names) = inner.at? names := by
  rw [at?, entry?, FileTree.entries, hentry, Option.bind_some]

namespace Discovery

/-- What is asked about the entries of the directory that names lead to: the ignore files of
    the directories from `path` on, the innermost first. -/
def stackIn (git : Bool) (stack : IgnoreStack) (path : Path) (tree : FileTree)
    (names : List String) : IgnoreStack :=
  names.inits.foldl (fun stack front => stack.push
    (IgnoreLayer.ofDirectory git (path.below front) ((tree.at? front).getD .empty))) stack

/-- No entry on the way along the names is ignored. -/
def Admits (git : Bool) (stack : IgnoreStack) (path : Path) (tree : FileTree)
    (names : List String) : Prop :=
  ∀ front name back, names = front ++ name :: back →
    (stackIn git stack path tree front).ignores (path.below (front ++ [name]))
      ((tree.at? (front ++ [name])).any FileTree.isDirectory) = false

section

variable {git : Bool} {stack : IgnoreStack} {path : Path} {entries : List (String × FileTree)}
  {name : String} {inner : FileTree}

theorem stackIn_cons (hentry : entries.lookup name = some inner) (names : List String) :
    stackIn git stack path (.directory entries) (name :: names) =
      stackIn git (stack.push (IgnoreLayer.ofDirectory git path (.directory entries)))
        (path.child name) inner names := by
  rw [stackIn, List.inits_cons, List.foldl_cons, List.foldl_map, stackIn]
  simp only [FileTree.at?_entry hentry]
  rfl

theorem admits_nil (tree : FileTree) : Admits git stack path tree [] := by
  intro front name back hsplit
  exact absurd hsplit (by simp)

/-- The first entry is asked about where the walk stands, the others inside of it. -/
theorem admits_cons (hentry : entries.lookup name = some inner) (names : List String) :
    Admits git stack path (.directory entries) (name :: names) ↔
      (stack.push (IgnoreLayer.ofDirectory git path (.directory entries))).ignores
          (path.child name) inner.isDirectory = false ∧
        Admits git (stack.push (IgnoreLayer.ofDirectory git path (.directory entries)))
          (path.child name) inner names := by
  constructor
  · intro h
    constructor
    · have hfirst := h [] name names rfl
      rw [List.nil_append, FileTree.at?_entry hentry] at hfirst
      exact hfirst
    · intro front last back hsplit
      have hlater := h (name :: front) last back (by rw [hsplit, List.cons_append])
      rw [stackIn_cons hentry, List.cons_append, FileTree.at?_entry hentry] at hlater
      exact hlater
  · rintro ⟨hfirst, hlater⟩ front last back hsplit
    cases front with
    | nil =>
      obtain ⟨rfl, rfl⟩ := List.cons.inj hsplit
      rw [List.nil_append, FileTree.at?_entry hentry]
      exact hfirst
    | cons first front =>
      obtain ⟨rfl, rfl⟩ := List.cons.inj hsplit
      rw [stackIn_cons hentry, List.cons_append, FileTree.at?_entry hentry]
      exact hlater front last back rfl

end

/-- A walk lists the files that names lead to, when nothing on the way is ignored. -/
theorem listed_iff {git : Bool} {stack : IgnoreStack} {path f : Path} {tree : FileTree}
    (hproper : tree.Proper) : Listed git stack path tree f ↔ ∃ names content,
      tree.at? names = some (.file content) ∧ f = path.below names ∧
        Admits git stack path tree names := by
  constructor
  · intro hlisted
    induction hlisted with
    | here => exact ⟨[], _, rfl, rfl, admits_nil _⟩
    | @inside stack path entries name inner f hmem hkept _ ih =>
      rw [FileTree.Proper] at hproper
      have hentry := Entries.lookup_of_mem hproper.1 hmem
      obtain ⟨names, content, hat, rfl, hadmits⟩ := ih (hproper.2.of_mem hmem).2
      exact ⟨name :: names, content, (FileTree.at?_entry hentry names).trans hat, rfl,
        (admits_cons hentry names).mpr ⟨hkept, hadmits⟩⟩
  · rintro ⟨names, content, hat, rfl, hadmits⟩
    induction names generalizing stack path tree with
    | nil =>
      obtain rfl := Option.some.inj hat
      exact .here
    | cons name names ih =>
      obtain ⟨entries, rfl, -⟩ := FileTree.directory_of_entry hat
      rw [FileTree.at?, Option.bind_eq_some_iff] at hat
      obtain ⟨inner, hentry, hat⟩ := hat
      rw [FileTree.Proper] at hproper
      have hmem := Entries.mem_of_lookup hentry
      obtain ⟨hkept, hadmits⟩ := (admits_cons hentry names).mp hadmits
      exact .inside hmem hkept (ih (hproper.2.of_mem hmem).2 hat hadmits)

/-! ### What a search finds -/

/-- Names lead from the directory to a file, and nothing on the way is ignored. -/
def Reaches (w : Workspace) (git : Bool) (directory : Path) (names : List String) : Prop :=
  ∃ tree canonical content, w.find? directory = some tree ∧
    w.canonical directory = .ok canonical ∧ tree.at? names = some (.file content) ∧
    Admits git (w.ignoreStack git directory canonical) directory tree names

/-- A search finds the file that names lead to. -/
structure Finds (w : Workspace) (language : Language) (patterns : List String) (git : Bool)
    (directory : Path) (names : List String) : Prop where
  reached : Reaches w git directory names
  extension : ∃ name, names.getLast? = some name ∧ language.HasExtension name
  /-- Both the pattern and the path behind the directory are read with slashes. -/
  kept : ∀ pattern ∈ patterns, ¬ Glob.Denotes true (Text.forwardSlashes pattern.toList)
    (Text.forwardSlashes (Text.joined "/" names).toList)

theorem read_fields {language : Language} {patterns : List String} {git : Bool} {d : Discovery}
    (hread : read language patterns git = .ok d) :
    d.language = language ∧ d.respectGitignore = git := by
  obtain ⟨globs, -, hd⟩ := bind_eq_ok_iff.mp hread
  obtain rfl := Except.ok.inj hd
  exact ⟨rfl, rfl⟩

/-- Patterns are read one by one, so their order does not matter. -/
theorem exists_read_of_perm {language : Language} {patterns patterns' : List String} {git : Bool}
    {d : Discovery} (hread : read language patterns git = .ok d) (hperm : patterns'.Perm patterns) :
    ∃ d', read language patterns' git = .ok d' :=
  exists_read_iff.mpr fun pattern hpattern =>
    exists_read_iff.mp ⟨d, hread⟩ pattern (hperm.mem_iff.mp hpattern)

/-- The files that a search of a directory ends with. -/
def found (d : Discovery) (w : Workspace) (directory : Path) : List Path :=
  (d.candidates w directory).filter fun f => !d.excludes directory f

section

variable {w : Workspace} {directory : Path} {git : Bool} {names : List String}
  (hdirectory : w.isDirectory directory = true)

include hdirectory

theorem text_ne_empty_of_isDirectory : directory.text ≠ "" := by
  intro hempty
  have hresolve : w.resolve directory = .error .notFound := by
    rw [Workspace.resolve, FileTree.resolve, hempty]
    rfl
  rw [Workspace.isDirectory, Workspace.find?, hresolve] at hdirectory
  cases hdirectory

theorem Reaches.ne_nil (h : Reaches w git directory names) : names ≠ [] := by
  rintro rfl
  obtain ⟨tree, canonical, content, hfind, -, hat, -⟩ := h
  obtain rfl := Option.some.inj hat
  rw [Workspace.isDirectory, hfind] at hdirectory
  cases hdirectory

end

section

variable {w : Workspace} (hproper : w.tree.Proper) {directory : Path} {git : Bool}

include hproper

theorem Reaches.plain {names : List String} (h : Reaches w git directory names) :
    ∀ n ∈ names, Path.IsPlain n := by
  obtain ⟨tree, canonical, content, hfind, -, hat, -⟩ := h
  exact (proper_of_find? hproper hfind).plain hat

theorem mem_walk_iff_reaches {f : Path} : f ∈ walk w git directory ↔
    ∃ names, Reaches w git directory names ∧ f = directory.below names := by
  rw [mem_walk_iff]
  constructor
  · rintro ⟨tree, canonical, hfind, hcanonical, hlisted⟩
    obtain ⟨names, content, hat, hf, hadmits⟩ :=
      (listed_iff (proper_of_find? hproper hfind)).mp hlisted
    exact ⟨names, ⟨tree, canonical, content, hfind, hcanonical, hat, hadmits⟩, hf⟩
  · rintro ⟨names, ⟨tree, canonical, content, hfind, hcanonical, hat, hadmits⟩, hf⟩
    exact ⟨tree, canonical, hfind, hcanonical,
      (listed_iff (proper_of_find? hproper hfind)).mpr ⟨names, content, hat, hf, hadmits⟩⟩

theorem found_increasing (d : Discovery) : Path.Increasing (d.found w directory) :=
  ((walk_increasing hproper d.respectGitignore directory).filter _).filter _

variable (hdirectory : w.isDirectory directory = true) {language : Language}
  {patterns : List String} {d : Discovery} (hread : read language patterns git = .ok d)

include hdirectory hread

/-- An exclude pattern is compared with the names behind the directory. -/
theorem excludes_below_iff {names : List String} (h : Reaches w git directory names) :
    d.excludes directory (directory.below names) = true ↔ ∃ pattern ∈ patterns,
      Glob.Denotes true (Text.forwardSlashes pattern.toList)
        (Text.forwardSlashes (Text.joined "/" names).toList) := by
  rw [excludes_iff hread, Path.displayedFrom_below (text_ne_empty_of_isDirectory hdirectory)
    (h.plain hproper) (h.ne_nil hdirectory), Path.slashText, String.toList_ofList,
    Path.ofSegments]

theorem mem_found_iff {f : Path} : f ∈ d.found w directory ↔
    ∃ names, Finds w language patterns git directory names ∧ f = directory.below names := by
  obtain ⟨hlanguage, hgit⟩ := read_fields hread
  have howns {names : List String} (h : Reaches w git directory names) :
      language.owns (directory.below names) = true ↔
        ∃ name, names.getLast? = some name ∧ language.HasExtension name :=
    Language.owns_below_iff (h.plain hproper) (h.ne_nil hdirectory) language
  rw [found, candidates, List.mem_filter, List.mem_filter, hgit, hlanguage,
    mem_walk_iff_reaches hproper, Bool.not_eq_true']
  constructor
  · rintro ⟨⟨⟨names, hreaches, rfl⟩, hextension⟩, hkept⟩
    refine ⟨names, ⟨hreaches, (howns hreaches).mp hextension, fun pattern hpattern hdenotes => ?_⟩,
      rfl⟩
    rw [(excludes_below_iff hproper hdirectory hread hreaches).mpr
      ⟨pattern, hpattern, hdenotes⟩] at hkept
    cases hkept
  · rintro ⟨names, ⟨hreaches, hextension, hkept⟩, rfl⟩
    refine ⟨⟨⟨names, hreaches, rfl⟩, (howns hreaches).mpr hextension⟩, ?_⟩
    rw [← Bool.not_eq_true, excludes_below_iff hproper hdirectory hread hreaches]
    rintro ⟨pattern, hpattern, hdenotes⟩
    exact hkept pattern hpattern hdenotes

end

/-- With more patterns a search finds some of the files, in the same order. -/
theorem found_sublist {language : Language} {patterns patterns' : List String} {git : Bool}
    {d d' : Discovery} (hread : read language patterns git = .ok d)
    (hread' : read language patterns' git = .ok d') (hmore : ∀ p ∈ patterns, p ∈ patterns')
    (w : Workspace) (directory : Path) :
    (d'.found w directory).Sublist (d.found w directory) := by
  obtain ⟨hlanguage, hgit⟩ := read_fields hread
  obtain ⟨hlanguage', hgit'⟩ := read_fields hread'
  rw [found, found, candidates, candidates, hlanguage, hgit, hlanguage', hgit']
  refine List.monotone_filter_right _ fun f hkept => ?_
  rw [Bool.not_eq_true', ← Bool.not_eq_true, excludes_iff hread'] at hkept
  rw [Bool.not_eq_true', ← Bool.not_eq_true, excludes_iff hread]
  rintro ⟨pattern, hpattern, hdenotes⟩
  exact hkept ⟨pattern, hmore pattern hpattern, hdenotes⟩

/-- **A search finds what it should, and nothing else.**  In a directory it never fails.  The
    files stand in path order, each once: those below the directory that no entry on the way
    takes out, with an extension of the language in whatever case, and with a path behind the
    directory that no exclude pattern denotes.  Patterns in another order find the same files,
    and with more patterns none is found that was not found before. -/
theorem finds_exactly {w : Workspace} (hproper : w.tree.Proper) {language : Language}
    {patterns : List String} {git : Bool} {d : Discovery}
    (hread : read language patterns git = .ok d) {directory : Path}
    (hdirectory : w.isDirectory directory = true) :
    ∃ files, (d.discover w directory).value = .ok files ∧ Path.Increasing files ∧
      (∀ f, f ∈ files ↔
        ∃ names, Finds w language patterns git directory names ∧ f = directory.below names) ∧
      (∀ patterns' : List String, patterns'.Perm patterns →
        ∃ d', read language patterns' git = .ok d' ∧
          (d'.discover w directory).value = .ok files) ∧
      ∀ (patterns' : List String) (d' : Discovery), (∀ p ∈ patterns, p ∈ patterns') →
        read language patterns' git = .ok d' →
          ∃ files', (d'.discover w directory).value = .ok files' ∧ files'.Sublist files := by
  refine ⟨d.found w directory, discover_directory d hdirectory, found_increasing hproper d,
    fun f => mem_found_iff hproper hdirectory hread, fun patterns' hperm => ?_,
    fun patterns' d' hmore hread' => ?_⟩
  · obtain ⟨d', hread'⟩ := exists_read_of_perm hread hperm
    have hsame : d'.found w directory = d.found w directory :=
      (found_sublist hread hread' (fun p hp => hperm.mem_iff.mpr hp) w directory).antisymm
        (found_sublist hread' hread (fun p hp => hperm.mem_iff.mp hp) w directory)
    exact ⟨d', hread', hsame ▸ discover_directory d' hdirectory⟩
  · exact ⟨_, discover_directory d' hdirectory, found_sublist hread hread' hmore w directory⟩

/-- A directory with files of several kinds, one of which is ignored. -/
def mixedWorkspace : Workspace where
  tree := .directory [("p", .directory [
    (".gitignore", .file (.text "out.dart\n")),
    ("a", .directory [("b.Dart", .file (.text ""))]),
    ("a-b.dart", .file (.text "")),
    ("gen", .directory [("x.dart", .file (.text ""))]),
    ("notes.txt", .file (.text "")),
    ("out.dart", .file (.text ""))])]
  workingNames := ["p"]
  home := none
  settingsDirectory := none

/-- As components `a` stands in front of `a-b.dart`, as texts it is the other way round. -/
theorem finds_exactly_mixed :
    mixedWorkspace.tree.Proper ∧ mixedWorkspace.isDirectory ⟨"."⟩ = true ∧
      ∃ d, read .dart ["gen\\**"] true = .ok d ∧
        (d.discover mixedWorkspace ⟨"."⟩).value = .ok [⟨"./a/b.Dart"⟩, ⟨"./a-b.dart"⟩] ∧
        (∃ names, Finds mixedWorkspace .dart ["gen\\**"] true ⟨"."⟩ names ∧
          ⟨"./a/b.Dart"⟩ = (⟨"."⟩ : Path).below names) ∧
        ¬ Finds mixedWorkspace .dart ["gen\\**"] true ⟨"."⟩ ["gen", "x.dart"] := by
  have hproper : mixedWorkspace.tree.Proper := by
    simp only [mixedWorkspace, FileTree.Proper, FileTree.ProperEntries]
    decide +kernel
  have hdirectory : mixedWorkspace.isDirectory ⟨"."⟩ = true := by decide +kernel
  obtain ⟨d, hread, hd⟩ : ∃ d, read .dart ["gen\\**"] true = .ok d ∧
      d.found mixedWorkspace ⟨"."⟩ = [⟨"./a/b.Dart"⟩, ⟨"./a-b.dart"⟩] := by
    refine ⟨_, rfl, ?_⟩
    have hcanonical : mixedWorkspace.canonical ⟨"."⟩ = .ok ⟨"/p"⟩ := by rfl
    rw [found, candidates, walk_of_sorted (by rfl) hcanonical (by decide +kernel)]
    decide +kernel
  obtain ⟨files, hfiles, -, hmem, -⟩ := finds_exactly hproper hread hdirectory
  have hsame : files = [⟨"./a/b.Dart"⟩, ⟨"./a-b.dart"⟩] :=
    (Except.ok.inj (hfiles.symm.trans (discover_directory d hdirectory))).trans hd
  refine ⟨hproper, hdirectory, d, hread, hsame ▸ hfiles, (hmem _).mp ?_, fun hfinds => ?_⟩
  · rw [hsame]
    exact List.mem_cons_self ..
  · have hgenerated := (hmem _).mpr ⟨_, hfinds, rfl⟩
    rw [hsame] at hgenerated
    revert hgenerated
    decide +kernel

end Discovery

end SourceAudit
