/-
  SourceAudit/Proofs/Gitignore/Erased.lean
  ========================================
  **A tree without its `.gitignore` files.**

  `FileTree.erased` takes every file called `.gitignore` out of a tree and keeps all
  else where it is; a directory of that name stays.  Two trees that differ in such
  files only have the same erased tree, so a fact that holds of a tree and its erased
  one is a fact about both runs.

  In a proper tree a list of names leads to the same place as before, unless it leads
  to an erased file (`at?_erased`).  A path takes the same steps in both trees; where
  it first meets an erased file it ends there or fails (`SameWay`).  So whatever path
  does not end in `.gitignore` finds the same, and directories are the same for all
  paths (`find?_erased`, `isDirectory_erased`).
-/
import SourceAudit.Proofs.Walk

namespace SourceAudit

namespace FileTree

def gitignoreName : String := ".gitignore"

def isGitignore (name : String) (tree : FileTree) : Bool :=
  name = gitignoreName && !tree.isDirectory

mutual

/-- The tree without its `.gitignore` files. -/
def erased : FileTree → FileTree
  | .file content => .file content
  | .directory entries => .directory (erasedEntries entries)

def erasedEntries : List (String × FileTree) → List (String × FileTree)
  | [] => []
  | (name, tree) :: rest =>
    if isGitignore name tree then erasedEntries rest
    else (name, tree.erased) :: erasedEntries rest

end

@[simp] theorem isDirectory_erased (tree : FileTree) :
    tree.erased.isDirectory = tree.isDirectory := by
  cases tree <;> simp [erased, isDirectory]

theorem isGitignore_of_isDirectory {name : String} {tree : FileTree}
    (hdirectory : tree.isDirectory = true) : isGitignore name tree = false := by
  simp [isGitignore, hdirectory]

theorem erasedEntries_names_sublist (entries : List (String × FileTree)) :
    ((erasedEntries entries).map Prod.fst).Sublist (entries.map Prod.fst) := by
  induction entries with
  | nil => simp [erasedEntries]
  | cons e rest ih =>
    obtain ⟨name, tree⟩ := e
    rw [erasedEntries]
    split
    · exact ih.cons _
    · exact ih.cons_cons _

mutual

theorem Proper.erased : {tree : FileTree} → tree.Proper → tree.erased.Proper
  | .file content, _ => by
    rw [FileTree.erased]
    trivial
  | .directory entries, hproper => by
    rw [Proper] at hproper
    rw [FileTree.erased, Proper]
    exact ⟨(erasedEntries_names_sublist entries).nodup hproper.1, hproper.2.erased⟩

theorem ProperEntries.erased :
    {entries : List (String × FileTree)} → ProperEntries entries →
      ProperEntries (erasedEntries entries)
  | [], _ => by
    rw [erasedEntries]
    trivial
  | (name, tree) :: rest, hproper => by
    obtain ⟨hname, htree, hrest⟩ := hproper
    rw [erasedEntries]
    split
    · exact hrest.erased
    · exact ⟨hname, htree.erased, hrest.erased⟩

end

/-! ### Names -/

theorem lookup_erasedEntries {entries : List (String × FileTree)}
    (hnodup : (entries.map Prod.fst).Nodup) (name : String) :
    (erasedEntries entries).lookup name =
      ((entries.lookup name).filter fun tree => !isGitignore name tree).map erased := by
  induction entries with
  | nil => simp [erasedEntries]
  | cons e rest ih =>
    obtain ⟨other, tree⟩ := e
    obtain ⟨hfresh, hnodup⟩ := List.nodup_cons.mp hnodup
    have hrest := ih hnodup
    rw [erasedEntries, List.lookup_cons]
    by_cases hsame : name = other
    · subst hsame
      have hnone : rest.lookup name = none := by
        rw [List.lookup_eq_none_iff]
        intro entry hentry
        rw [bne_iff_ne]
        rintro rfl
        exact hfresh (List.mem_map.mpr ⟨entry, hentry, rfl⟩)
      rw [hnone, Option.filter_none, Option.map_none] at hrest
      cases hgit : isGitignore name tree with
      | true =>
        rw [if_pos rfl, hrest]
        simp [Option.filter_some, hgit]
      | false => simp [Option.filter_some, hgit]
    · rw [beq_false_of_ne hsame]
      split
      · exact hrest
      · rw [List.lookup_cons, beq_false_of_ne hsame]
        exact hrest

theorem at?_file {content : Content} {names : List String} (hne : names ≠ []) :
    (file content).at? names = none := by
  cases names with
  | nil => exact absurd rfl hne
  | cons name rest => rfl

/-- A list of names leads to the same in the erased tree, or to an erased file. -/
theorem at?_erased {tree : FileTree} (hproper : tree.Proper) (names : List String) :
    tree.erased.at? names =
      ((tree.at? names).filter fun inner => !isGitignore (names.getLastD "") inner).map erased := by
  induction names generalizing tree with
  | nil => simp [at?, isGitignore, gitignoreName, Option.filter_some]
  | cons name rest ih =>
    cases tree with
    | file content => rfl
    | directory entries =>
      rw [Proper] at hproper
      have hentry : (directory entries).erased.entry? name =
          ((entries.lookup name).filter fun tree => !isGitignore name tree).map erased := by
        rw [erased]
        exact lookup_erasedEntries hproper.1 name
      rw [at?, hentry, at?, FileTree.entry?, FileTree.entries]
      cases hfound : entries.lookup name with
      | none => rfl
      | some inner =>
        have hinner := (hproper.2.of_mem (Entries.mem_of_lookup hfound)).2
        by_cases hrest : rest = []
        · subst hrest
          cases hgit : isGitignore name inner <;> simp [at?, Option.filter_some, hgit]
        · have hlast : (name :: rest).getLastD "" = rest.getLastD "" := by
            obtain ⟨next, more, rfl⟩ := List.exists_cons_of_ne_nil hrest
            simp
          cases hgit : isGitignore name inner with
          | true =>
            -- nothing lies below the erased file
            obtain ⟨-, hfile⟩ := Bool.and_eq_true_iff.mp hgit
            cases inner with
            | file content => simp [at?_file hrest, Option.filter_some, hgit]
            | directory _ => simp [isDirectory] at hfile
          | false =>
            simp only [hgit, Bool.not_false, Option.filter_some, if_true, Option.map_some,
              Option.bind_some]
            rw [ih hinner, hlast]

/-! ### Steps -/

/-- What the names lead to is no erased file. -/
def Keeps (tree : FileTree) (names : List String) : Prop :=
  ∀ inner, tree.at? names = some inner → isGitignore (names.getLastD "") inner = false

theorem at?_append (tree : FileTree) (front back : List String) :
    tree.at? (front ++ back) = (tree.at? front).bind (·.at? back) := by
  induction front generalizing tree with
  | nil => rfl
  | cons name rest ih =>
    rw [List.cons_append, at?, at?]
    cases tree.entry? name with
    | none => rfl
    | some inner => exact ih inner

theorem keeps_of_directory {tree : FileTree} {names : List String}
    {entries : List (String × FileTree)} (hat : tree.at? names = some (.directory entries)) :
    Keeps tree names := by
  intro inner hinner
  obtain rfl : directory entries = inner := Option.some.inj (hat.symm.trans hinner)
  exact isGitignore_of_isDirectory rfl

theorem at?_erased_of_keeps {tree : FileTree} (hproper : tree.Proper) {names : List String}
    (hkeeps : Keeps tree names) : tree.erased.at? names = (tree.at? names).map erased := by
  rw [at?_erased hproper]
  cases hat : tree.at? names with
  | none => rfl
  | some inner =>
    rw [Option.filter_some, hkeeps inner hat]
    rfl

/-- Around a directory there are directories only. -/
theorem directory_dropLast {tree : FileTree} {names : List String}
    {entries : List (String × FileTree)} (hat : tree.at? names = some (.directory entries)) :
    ∃ around, tree.at? names.dropLast = some (.directory around) := by
  rcases List.eq_nil_or_concat names with rfl | ⟨front, last, rfl⟩
  · exact ⟨entries, hat⟩
  · rw [List.concat_eq_append] at hat ⊢
    rw [at?_append, Option.bind_eq_some_iff] at hat
    obtain ⟨inner, hinner, hlast⟩ := hat
    rw [List.dropLast_concat]
    cases inner with
    | file content => simp [at?, FileTree.entry?, FileTree.entries] at hlast
    | directory around => exact ⟨around, hinner⟩

/-- How the same steps end in a tree and in its erased tree. -/
inductive SameWay (tree : FileTree) :
    Except FileError (List String) → Except FileError (List String) → Prop
  | failed {e e'} : SameWay tree (.error e) (.error e')
  | kept {names} (hkeeps : Keeps tree names) : SameWay tree (.ok names) (.ok names)
  | erased {names content e} (hat : tree.at? names = some (.file content))
      (hlast : names.getLast? = some gitignoreName) : SameWay tree (.ok names) (.error e)

theorem sameWay_step {tree : FileTree} (hproper : tree.Proper) {names : List String}
    (hkeeps : Keeps tree names) (segment : String) :
    SameWay tree (resolveStep tree names segment) (resolveStep tree.erased names segment) := by
  unfold resolveStep
  rw [at?_erased_of_keeps hproper hkeeps]
  cases hat : tree.at? names with
  | none => exact .failed
  | some inner =>
    cases inner with
    | file content => exact .failed
    | directory entries =>
      have hinner := hproper.at hat
      rw [Proper] at hinner
      rw [Option.map_some, erased]
      simp only [lookup_erasedEntries hinner.1]
      split
      · exact .kept hkeeps
      · split
        · obtain ⟨around, haround⟩ := directory_dropLast hat
          exact .kept (keeps_of_directory haround)
        · have hbelow : tree.at? (names ++ [segment]) = entries.lookup segment := by
            rw [at?_append, hat]
            simp [at?, FileTree.entry?, FileTree.entries]
          cases hfound : entries.lookup segment with
          | none => exact .failed
          | some next =>
            cases hgit : isGitignore segment next with
            | true =>
              obtain ⟨hname, hfile⟩ := Bool.and_eq_true_iff.mp hgit
              obtain rfl : segment = gitignoreName := by simpa using hname
              cases next with
              | file content =>
                simp only [Option.isSome_some, if_true, Option.filter_some, hgit]
                exact .erased (hbelow.trans hfound) (by simp)
              | directory _ => simp [isDirectory] at hfile
            | false =>
              simp only [Option.isSome_some, if_true, Option.filter_some, hgit]
              refine .kept fun inner hinner => ?_
              obtain rfl : next = inner := Option.some.inj ((hbelow.trans hfound).symm.trans hinner)
              simpa using hgit

/-- A step starts at a directory, and stays, goes out or goes to an entry. -/
theorem resolveStep_cases {tree : FileTree} {names found : List String} {segment : String}
    (hstep : resolveStep tree names segment = .ok found) :
    ∃ entries, tree.at? names = some (.directory entries) ∧
      (found = names ∨ found = names.dropLast ∨ found = names ++ [segment]) := by
  unfold resolveStep at hstep
  split at hstep
  · next entries hat =>
    refine ⟨entries, hat, ?_⟩
    split at hstep
    · exact .inl (Except.ok.inj hstep).symm
    · split at hstep
      · exact .inr (.inl (Except.ok.inj hstep).symm)
      · split at hstep
        · exact .inr (.inr (Except.ok.inj hstep).symm)
        · cases hstep
  · cases hstep
  · cases hstep

theorem steps_stuck {tree : FileTree} {names segments : List String}
    (hstuck : ∀ entries, tree.at? names ≠ some (.directory entries)) (hne : segments ≠ []) :
    ∃ e, segments.foldlM (resolveStep tree) names = .error e := by
  obtain ⟨segment, rest, rfl⟩ := List.exists_cons_of_ne_nil hne
  cases hstep : resolveStep tree names segment with
  | ok found =>
    obtain ⟨entries, hat, -⟩ := resolveStep_cases hstep
    exact absurd hat (hstuck entries)
  | error e =>
    refine ⟨e, ?_⟩
    rw [List.foldlM_cons, hstep]
    rfl

theorem sameWay_steps {tree : FileTree} (hproper : tree.Proper) {names : List String}
    (hkeeps : Keeps tree names) (segments : List String) :
    SameWay tree (segments.foldlM (resolveStep tree) names)
      (segments.foldlM (resolveStep tree.erased) names) := by
  induction segments generalizing names with
  | nil => exact .kept hkeeps
  | cons segment rest ih =>
    rw [List.foldlM_cons, List.foldlM_cons]
    have hstep := sameWay_step hproper hkeeps segment
    revert hstep
    generalize resolveStep tree names segment = first
    generalize resolveStep tree.erased names segment = second
    intro hstep
    cases hstep with
    | failed => exact .failed
    | kept hnext => exact ih hnext
    | @erased file content e hat hlast =>
      cases rest with
      | nil => exact .erased hat hlast
      | cons next more =>
        have hstuck : ∀ entries, tree.at? file ≠ some (.directory entries) := by
          intro entries hdirectory
          rw [hat] at hdirectory
          cases hdirectory
        obtain ⟨e, he⟩ := steps_stuck hstuck (List.cons_ne_nil next more)
        change SameWay tree (List.foldlM _ _ (next :: more)) _
        rw [he]
        exact .failed

theorem sameWay_from {tree : FileTree} (hproper : tree.Proper) (names : List String)
    {segments : List String} (hne : segments ≠ []) :
    SameWay tree (segments.foldlM (resolveStep tree) names)
      (segments.foldlM (resolveStep tree.erased) names) := by
  by_cases hkeeps : Keeps tree names
  · exact sameWay_steps hproper hkeeps segments
  · -- the start is an erased file, and no step leads on from it in either tree
    have hstuck : ∀ entries, tree.at? names ≠ some (.directory entries) :=
      fun entries hat => hkeeps (keeps_of_directory hat)
    have hstuck' : ∀ entries, tree.erased.at? names ≠ some (.directory entries) := by
      intro entries hat
      rw [at?_erased hproper, Option.map_eq_some_iff] at hat
      obtain ⟨inner, hinner, herased⟩ := hat
      cases inner with
      | file content => simp [erased] at herased
      | directory around => exact hstuck around (Option.filter_eq_some_iff.mp hinner).1
    obtain ⟨e, he⟩ := steps_stuck hstuck hne
    obtain ⟨e', he'⟩ := steps_stuck hstuck' hne
    rw [he, he']
    exact .failed

/-- Steps that end at a file end with its name. -/
theorem getLast?_of_steps {tree : FileTree} {names found : List String} {segments : List String}
    {content : Content} (hsteps : segments.foldlM (resolveStep tree) names = .ok found)
    (hne : segments ≠ []) (hfile : tree.at? found = some (.file content)) :
    segments.getLast? = found.getLast? := by
  obtain ⟨front, last, rfl⟩ := (List.eq_nil_or_concat segments).resolve_left hne
  rw [List.concat_eq_append] at hsteps ⊢
  rw [List.foldlM_append] at hsteps
  cases hfront : front.foldlM (resolveStep tree) names with
  | error e =>
    rw [hfront] at hsteps
    cases hsteps
  | ok before =>
    rw [hfront] at hsteps
    have hlast : resolveStep tree before last = .ok found := by
      rw [← hsteps]
      change _ = List.foldlM _ _ [last]
      rw [List.foldlM_cons]
      cases resolveStep tree before last <;> rfl
    obtain ⟨entries, hat, rfl | rfl | rfl⟩ := resolveStep_cases hlast
    · rw [hat] at hfile
      cases hfile
    · obtain ⟨around, haround⟩ := directory_dropLast hat
      rw [haround] at hfile
      cases hfile
    · simp

end FileTree

/-! ### Workspaces -/

/-- The last written segment of a path is `.gitignore`. -/
def Path.NamesGitignore (p : Path) : Prop := p.segments.getLast? = some FileTree.gitignoreName

namespace Workspace

open FileTree (SameWay Keeps erasedEntries)

/-- What a run sees without the `.gitignore` files. -/
def erased (w : Workspace) : Workspace := { w with tree := w.tree.erased }

variable {w : Workspace} (hproper : w.tree.Proper)

include hproper

theorem resolve_erased (p : Path) : SameWay w.tree (w.resolve p) (w.erased.resolve p) := by
  unfold resolve FileTree.resolve
  split
  · exact .failed
  · exact FileTree.sameWay_from hproper _ (Path.segments_ne_nil p)

/-- A path finds the same without the `.gitignore` files, unless it leads to one. -/
theorem find?_erased_or (p : Path) :
    w.erased.find? p = (w.find? p).map FileTree.erased ∨
      p.NamesGitignore ∧ (∃ content, w.find? p = some (.file content)) ∧
        w.erased.find? p = none := by
  have hway := resolve_erased hproper p
  unfold find?
  generalize hfirst : w.resolve p = first at hway
  generalize w.erased.resolve p = second at hway
  cases hway with
  | failed => exact .inl rfl
  | kept hkeeps => exact .inl (FileTree.at?_erased_of_keeps hproper hkeeps)
  | erased hat hlast =>
    refine .inr ⟨?_, ⟨_, hat⟩, rfl⟩
    unfold resolve FileTree.resolve at hfirst
    split at hfirst
    · cases hfirst
    · rw [Path.NamesGitignore,
        FileTree.getLast?_of_steps hfirst (Path.segments_ne_nil p) hat, hlast]

theorem find?_erased {p : Path} (hp : ¬ p.NamesGitignore) :
    w.erased.find? p = (w.find? p).map FileTree.erased :=
  (find?_erased_or hproper p).resolve_right fun h => hp h.1

theorem isDirectory_erased (p : Path) : w.erased.isDirectory p = w.isDirectory p := by
  unfold isDirectory
  rcases find?_erased_or hproper p with hsame | ⟨-, ⟨content, hfile⟩, hnone⟩
  · rw [hsame]
    cases w.find? p with
    | none => rfl
    | some tree => cases tree <;> simp [FileTree.erased]
  · rw [hfile, hnone]

theorem isFile_erased {p : Path} (hp : ¬ p.NamesGitignore) : w.erased.isFile p = w.isFile p := by
  unfold isFile
  rw [find?_erased hproper hp]
  cases w.find? p with
  | none => rfl
  | some tree => cases tree <;> simp [FileTree.erased]

/-- The way to a directory is the same. -/
theorem resolve_erased_directory {p : Path} {entries : List (String × FileTree)}
    (hfind : w.find? p = some (.directory entries)) : w.erased.resolve p = w.resolve p := by
  have hway := resolve_erased hproper p
  unfold find? at hfind
  generalize w.resolve p = first at hway hfind
  generalize w.erased.resolve p = second at hway
  cases hway with
  | failed => cases hfind
  | kept _ => rfl
  | erased hat _ =>
    have hboth := hat.symm.trans hfind
    cases hboth

omit hproper in
theorem readText_toOption (w : Workspace) (p : Path) :
    (w.readText p).toOption = (w.find? p).bind fun tree =>
      match tree with
      | .file (.text s) => some s
      | _ => none := by
  unfold readText find?
  cases w.resolve p with
  | error e => rfl
  | ok names =>
    simp only [bind, Except.bind, Except.toOption, Option.bind]
    cases w.tree.at? names with
    | none => rfl
    | some tree =>
      cases tree with
      | file content => cases content <;> rfl
      | directory entries => rfl

theorem readText_erased {p : Path} (hp : ¬ p.NamesGitignore) :
    (w.erased.readText p).toOption = (w.readText p).toOption := by
  rw [readText_toOption, readText_toOption, find?_erased hproper hp]
  cases w.find? p with
  | none => rfl
  | some tree => cases tree <;> simp [FileTree.erased]

end Workspace

end SourceAudit
