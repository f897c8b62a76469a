/-
  SourceAudit/Proofs/PlainPaths.lean
  ==================================
  **Paths of names below the root.**

  What a path is resolved to is a list of names below the root, and written out these are
  the plainest of all paths (`Path.ofNames`): an entry adds its name (`Path.child_ofNames`),
  the path around has one name less (`Path.parent?_ofNames`), folding changes nothing, and
  behind a directory the other names are left (`Path.displayedFrom_ofNames`).  Resolving one
  gives its names back when they lead anywhere (`Workspace.resolve_ofNames`), so a walk of
  such a directory lists such paths (`Discovery.ofNames_of_mem_walk`).
-/
import SourceAudit.Proofs.Walk
import SourceAudit.Proofs.Records
import SourceAudit.Proofs.RelativePaths
import SourceAudit.Proofs.Gitignore.Erased
import Mathlib.Data.List.Basic

namespace SourceAudit

/-! ### Paths of names -/

namespace Path

theorem foldedList_names {names : List String} (hnames : ∀ n ∈ names, IsPlain n) :
    FoldedList (.root :: names.map .name) :=
  ⟨[.root], names, .root, hnames, rfl⟩

theorem ofNames_eq {names : List String} (hnames : ∀ n ∈ names, IsPlain n) :
    ofNames names = withHead true "" names := by
  have hcomponents : names.map component = names.map .name :=
    List.map_congr_left fun n hn => (hnames n hn).component_eq
  rw [ofNames, ← hcomponents, ofComponents_rooted]

section

variable {names : List String} (hnames : ∀ n ∈ names, IsPlain n)

include hnames

theorem components_ofNames : (ofNames names).components = .root :: names.map .name :=
  components_ofComponents (foldedList_names hnames)

theorem isAbsolute_ofNames : (ofNames names).isAbsolute = true := by
  rw [ofNames_eq hnames]
  exact Counted.rooted_absolute names

theorem segments_ofNames :
    (ofNames names).segments = "" :: if names = [] then [""] else names := by
  rw [ofNames_eq hnames]
  exact (IsPlain.counted hnames).rooted_segments

theorem folded_ofNames : (ofNames names).folded = ofNames names := by
  rw [folded, components_ofNames hnames, (foldedList_names hnames).foldComponents_eq]
  rfl

theorem foldedList_ofNames : FoldedList (ofNames names).components := by
  rw [components_ofNames hnames]
  exact foldedList_names hnames

/-- Joining leaves an absolute path as it is. -/
theorem join_ofNames (base : Path) : base.join (ofNames names) = ofNames names := by
  rw [join, if_pos (isAbsolute_ofNames hnames)]

variable {name : String} (hname : IsPlain name)

include hname

theorem parent?_ofNames : (ofNames (names ++ [name])).parent? = some (ofNames names) := by
  have hparent := parent?_ofComponents (foldedList_names hnames) hname
  rw [List.cons_append, ← List.map_singleton (f := Component.name), ← List.map_append] at hparent
  exact hparent

/-- The last name stands behind a slash. -/
theorem text_ofNames : (ofNames (names ++ [name])).text =
    Text.joined "/" ("" :: names) ++ "/" ++ name := by
  have hall : ∀ n ∈ names ++ [name], IsPlain n := by
    intro n hn
    rcases List.mem_append.mp hn with hn | hn
    · exact hnames n hn
    · rwa [List.mem_singleton.mp hn]
  have hwritten : withHead true "" (names ++ [name]) = ofSegments ("" :: (names ++ [name])) := by
    obtain ⟨first, rest, hcut⟩ := List.exists_cons_of_ne_nil (l := names ++ [name]) (by simp)
    rw [hcut]
    rfl
  rw [ofNames_eq hall, hwritten, ofSegments, ← List.cons_append, Text.joined,
    String.intercalate_append_of_ne_nil (by simp) (by simp), String.intercalate_singleton]
  rfl

theorem child_ofNames : (ofNames names).child name = ofNames (names ++ [name]) := by
  have hrelative := hname.not_absolute
  have hwritten : ofNames (names ++ [name]) = ⟨Text.joined "/" ("" :: names) ++ "/" ++ name⟩ := by
    rw [← text_ofNames hnames hname]
  rw [hwritten, child, join, if_neg (by simp [hrelative])]
  rcases List.eq_nil_or_concat names with rfl | ⟨front, last, rfl⟩
  · rfl
  · rw [List.concat_eq_append] at hnames ⊢
    obtain ⟨hcounts, -, hslash⟩ := hnames last (by simp)
    have hfront : ∀ n ∈ front, IsPlain n := fun n hn => hnames n (List.mem_append_left _ hn)
    have htext := text_ofNames hfront (hnames last (by simp))
    have hne : last.toList ≠ [] := by
      intro hnil
      obtain rfl : last = "" := by simpa using hnil
      simp [isSilent] at hcounts
    have hopen : (ofNames (front ++ [last])).text.toList.getLast? ≠ some '/' := by
      rw [htext, String.toList_append, List.getLast?_append_of_ne_nil _ hne]
      exact fun hlast => hslash (List.mem_of_getLast? hlast)
    have hfull : (ofNames (front ++ [last])).text.isEmpty = false := by
      rw [← Bool.not_eq_true, String.isEmpty_iff, htext, ← String.toList_inj, String.toList_append]
      simp
    rw [if_neg (by simp [hopen, hfull]), htext, ← List.cons_append, Text.joined, Text.joined,
      String.intercalate_append_of_ne_nil (by simp) (by simp), String.intercalate_singleton]

end

/-- Going into names one after the other. -/
theorem foldl_child_ofNames {names more : List String} (hnames : ∀ n ∈ names, IsPlain n)
    (hmore : ∀ n ∈ more, IsPlain n) :
    more.foldl child (ofNames names) = ofNames (names ++ more) := by
  induction more generalizing names with
  | nil => rw [List.append_nil, List.foldl_nil]
  | cons n rest ih =>
    have hn : IsPlain n := hmore n (List.mem_cons_self ..)
    have hstep : ∀ m ∈ names ++ [n], IsPlain m := by
      intro m hm
      rcases List.mem_append.mp hm with hm | hm
      · exact hnames m hm
      · rwa [List.mem_singleton.mp hm]
    rw [List.foldl_cons, child_ofNames hnames hn,
      ih hstep fun m hm => hmore m (List.mem_cons_of_mem _ hm), List.append_assoc,
      List.singleton_append]

theorem ofNames_inj {names more : List String} (hnames : ∀ n ∈ names, IsPlain n)
    (hmore : ∀ n ∈ more, IsPlain n) (hsame : ofNames names = ofNames more) : names = more := by
  have hcomponents := congrArg components hsame
  rw [components_ofNames hnames, components_ofNames hmore, List.cons.injEq] at hcomponents
  exact List.map_injective_iff.mpr (fun _ _ => Component.name.inj) hcomponents.2

/-- Behind a directory the names below it are shown. -/
theorem displayedFrom_ofNames {names more : List String} (hnames : ∀ n ∈ names, IsPlain n)
    (hmore : ∀ n ∈ more, IsPlain n) :
    (ofNames (names ++ more)).displayedFrom (ofNames names) = (ofSegments more).slashText := by
  have hrelative := relativeTo?_ofComponents (foldedList_ofNames hnames) hmore
  rw [components_ofNames hnames, List.cons_append, ← List.map_append] at hrelative
  rw [displayedFrom, ofNames, hrelative, Option.getD_some]

end Path

/-! ### Resolving them -/

namespace FileTree

theorem directory_of_entry {tree inner : FileTree} {name : String} {names : List String}
    (hat : tree.at? (name :: names) = some inner) :
    ∃ entries, tree = .directory entries ∧ (entries.lookup name).isSome = true := by
  cases tree with
  | file content =>
    rw [at?_file (List.cons_ne_nil _ _)] at hat
    cases hat
  | directory entries =>
    rw [at?, Option.bind_eq_some_iff] at hat
    obtain ⟨next, hnext, -⟩ := hat
    exact ⟨entries, rfl, Option.isSome_iff_exists.mpr ⟨next, hnext⟩⟩

/-- The names on the way to something in a proper tree are plain. -/
theorem Proper.plain {tree inner : FileTree} {names : List String} (hproper : tree.Proper)
    (hat : tree.at? names = some inner) : ∀ n ∈ names, Path.IsPlain n := by
  induction names generalizing tree with
  | nil =>
    intro n hn
    cases hn
  | cons name rest ih =>
    obtain ⟨entries, rfl, -⟩ := directory_of_entry hat
    rw [at?, Option.bind_eq_some_iff] at hat
    obtain ⟨next, hnext, hat⟩ := hat
    rw [Proper] at hproper
    obtain ⟨hname, hnextProper⟩ := hproper.2.of_mem (Entries.mem_of_lookup hnext)
    intro n hn
    rcases List.mem_cons.mp hn with rfl | hn
    · exact hname
    · exact ih hnextProper hat n hn

/-- Plain names lead where they lie. -/
theorem steps_into {tree inner : FileTree} {front names : List String}
    (hnames : ∀ n ∈ names, Path.IsPlain n) (hat : tree.at? (front ++ names) = some inner) :
    names.foldlM (resolveStep tree) front = .ok (front ++ names) := by
  induction names generalizing front with
  | nil =>
    rw [List.append_nil]
    rfl
  | cons name rest ih =>
    obtain ⟨hcounts, hup, -⟩ := hnames name (List.mem_cons_self ..)
    have hfront := hat
    rw [at?_append, Option.bind_eq_some_iff] at hfront
    obtain ⟨directory, hdirectory, hinside⟩ := hfront
    obtain ⟨entries, rfl, hentry⟩ := directory_of_entry hinside
    have hstep : resolveStep tree front name = .ok (front ++ [name]) := by
      simp [resolveStep, hdirectory, hcounts, hup, hentry]
    have hnext : tree.at? (front ++ [name] ++ rest) = some inner := by
      rwa [List.append_assoc, List.singleton_append]
    have hrest := ih (fun n hn => hnames n (List.mem_cons_of_mem _ hn)) hnext
    rw [List.append_assoc, List.singleton_append] at hrest
    rw [List.foldlM_cons, hstep]
    exact hrest

theorem steps_cons_iff {tree : FileTree} {names found rest : List String} {segment : String} :
    (segment :: rest).foldlM (resolveStep tree) names = .ok found ↔
      ∃ next, resolveStep tree names segment = .ok next ∧
        rest.foldlM (resolveStep tree) next = .ok found := by
  rw [List.foldlM_cons, bind_eq_ok_iff]

theorem steps_append_iff {tree : FileTree} {names found front back : List String} :
    (front ++ back).foldlM (resolveStep tree) names = .ok found ↔
      ∃ middle, front.foldlM (resolveStep tree) names = .ok middle ∧
        back.foldlM (resolveStep tree) middle = .ok found := by
  rw [List.foldlM_append, bind_eq_ok_iff]

/-- A step comes to something that exists. -/
theorem isSome_of_step {tree : FileTree} {names found : List String} {segment : String}
    (hstep : resolveStep tree names segment = .ok found) : (tree.at? found).isSome = true := by
  unfold resolveStep at hstep
  split at hstep
  · next entries hat =>
    by_cases hsilent : Path.isSilent segment = true
    · rw [if_pos hsilent] at hstep
      cases hstep
      rw [hat, Option.isSome_some]
    · rw [if_neg hsilent] at hstep
      by_cases hup : segment = ".."
      · rw [if_pos hup] at hstep
        cases hstep
        obtain ⟨around, haround⟩ := directory_dropLast hat
        rw [haround, Option.isSome_some]
      · rw [if_neg hup] at hstep
        split at hstep
        · next hentry =>
          cases hstep
          rw [at?_append, hat, Option.bind_some, at?]
          obtain ⟨next, hnext⟩ := Option.isSome_iff_exists.mp hentry
          have hnext : FileTree.entry? (.directory entries) segment = some next := hnext
          rw [hnext]
          rfl
        · cases hstep
  · cases hstep
  · cases hstep

theorem isSome_of_steps {tree : FileTree} {names found : List String} {segments : List String}
    (hsteps : segments.foldlM (resolveStep tree) names = .ok found) (hne : segments ≠ []) :
    (tree.at? found).isSome = true := by
  obtain ⟨front, last, rfl⟩ := (List.eq_nil_or_concat segments).resolve_left hne
  rw [List.concat_eq_append, steps_append_iff] at hsteps
  obtain ⟨middle, -, hlast⟩ := hsteps
  obtain ⟨next, hstep, hend⟩ := steps_cons_iff.mp hlast
  obtain rfl : next = found := Except.ok.inj hend
  exact isSome_of_step hstep

/-- Nothing can be resolved in a tree that is a file. -/
theorem isDirectory_of_steps {tree : FileTree} {names found : List String} {segments : List String}
    (hsteps : segments.foldlM (resolveStep tree) names = .ok found) (hne : segments ≠ []) :
    tree.isDirectory = true := by
  cases tree with
  | directory entries => rfl
  | file content =>
    have hstuck : ∀ entries, (FileTree.file content).at? names ≠ some (.directory entries) := by
      intro entries hat
      cases names with
      | nil => cases hat
      | cons n rest =>
        rw [at?_file (List.cons_ne_nil _ _)] at hat
        cases hat
    obtain ⟨e, herror⟩ := steps_stuck hstuck hne
    rw [herror] at hsteps
    cases hsteps

end FileTree

namespace Workspace

variable {w : Workspace} {names : List String}

/-- What a path is resolved to exists, below a root that is a directory. -/
theorem exists_of_resolve {p : Path} (hresolve : w.resolve p = .ok names) :
    w.tree.isDirectory = true ∧ ∃ tree, w.tree.at? names = some tree := by
  unfold resolve FileTree.resolve at hresolve
  split at hresolve
  · cases hresolve
  · exact ⟨FileTree.isDirectory_of_steps hresolve (Path.segments_ne_nil p),
      Option.isSome_iff_exists.mp (FileTree.isSome_of_steps hresolve (Path.segments_ne_nil p))⟩

/-- A path of names leads to these names. -/
theorem resolve_ofNames (hproper : w.tree.Proper) (hroot : w.tree.isDirectory = true)
    {tree : FileTree} (hat : w.tree.at? names = some tree) :
    w.resolve (Path.ofNames names) = .ok names := by
  have hnames := hproper.plain hat
  have hsegments := Path.segments_ofNames hnames
  have habsolute := Path.isAbsolute_ofNames hnames
  have hstay : FileTree.resolveStep w.tree [] "" = .ok [] := by
    cases hdirectory : w.tree with
    | file content =>
      rw [hdirectory] at hroot
      cases hroot
    | directory entries => rfl
  have hfull : (Path.ofNames names).text.isEmpty = false := by
    rw [← Bool.not_eq_true, String.isEmpty_iff]
    intro hempty
    rw [Path.isAbsolute, hempty] at habsolute
    cases habsolute
  unfold resolve FileTree.resolve
  rw [hfull, hsegments, habsolute, if_neg Bool.false_ne_true, if_pos rfl, List.foldlM_cons, hstay]
  by_cases hnil : names = []
  · subst hnil
    rw [if_pos rfl]
    change (FileTree.resolveStep w.tree [] "" >>= pure) = _
    rw [hstay]
    rfl
  · rw [if_neg hnil]
    rw [← List.nil_append names] at hat
    exact FileTree.steps_into hnames hat

theorem find?_ofNames (hproper : w.tree.Proper) (hroot : w.tree.isDirectory = true)
    {tree : FileTree} (hat : w.tree.at? names = some tree) :
    w.find? (Path.ofNames names) = some tree := by
  rw [find?, resolve_ofNames hproper hroot hat]
  exact hat

end Workspace

/-! ### Walking from them -/

namespace Discovery

/-- The path of a file in a walk is that of the directory with names gone into. -/
theorem Listed.spelled {git : Bool} {stack : IgnoreStack} {path f : Path} {tree : FileTree}
    (hlisted : Listed git stack path tree f) (hproper : tree.Proper) :
    ∃ names content, tree.at? names = some (.file content) ∧ f = names.foldl Path.child path := by
  induction hlisted with
  | here => exact ⟨[], _, rfl, rfl⟩
  | @inside stack path entries name tree f hmem hkept hlisted ih =>
    rw [FileTree.Proper] at hproper
    obtain ⟨-, htree⟩ := hproper.2.of_mem hmem
    obtain ⟨names, content, hat, hpath⟩ := ih htree
    refine ⟨name :: names, content, ?_, hpath⟩
    rw [FileTree.at?, FileTree.entry?, FileTree.entries, Entries.lookup_of_mem hproper.1 hmem]
    exact hat

/-- A walk from a path of names lists paths of names. -/
theorem ofNames_of_mem_walk {w : Workspace} (hproper : w.tree.Proper)
    (hroot : w.tree.isDirectory = true) {names : List String} {directory : FileTree}
    (hat : w.tree.at? names = some directory) {git : Bool} {f : Path}
    (hf : f ∈ walk w git (Path.ofNames names)) :
    ∃ more content, w.tree.at? (names ++ more) = some (.file content) ∧
      f = Path.ofNames (names ++ more) := by
  obtain ⟨tree, canonical, htree, -, hlisted⟩ := mem_walk_iff.mp hf
  rw [Workspace.find?_ofNames hproper hroot hat] at htree
  obtain rfl := Option.some.inj htree
  obtain ⟨more, content, hmore, rfl⟩ := hlisted.spelled (hproper.at hat)
  refine ⟨more, content, ?_, ?_⟩
  · rw [FileTree.at?_append, hat]
    exact hmore
  · exact Path.foldl_child_ofNames (hproper.plain hat) ((hproper.at hat).plain hmore)

end Discovery

end SourceAudit
