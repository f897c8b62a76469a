/-
  SourceAudit/Proofs/Respelled/Resolving.lean
  ===========================================
  **Two spellings of one directory.**

  Two absolute paths are `Respelled` when they lead to the same place and are folded to the
  same path.  Joining the same path to both leads to the same place again, since steps go on
  from where the first path led (`Workspace.resolve_join`): so the same files exist below
  both, they hold the same texts, and the joined paths are respelled themselves when they
  lead anywhere (`Respelled.join`).
-/
import SourceAudit.Proofs.Respelled.Below
import SourceAudit.Proofs.WrittenFiles

namespace SourceAudit

/-! ### Going on from a directory -/

namespace FileTree

/-- A silent step before another one makes no difference. -/
theorem step_behind_silent (tree : FileTree) (names : List String) {silent : String}
    (hsilent : Path.isSilent silent = true) (segment : String) :
    (resolveStep tree names silent).bind (resolveStep tree · segment) =
      resolveStep tree names segment := by
  cases hat : tree.at? names with
  | none =>
    simp only [resolveStep, hat]
    rfl
  | some inner =>
    cases inner with
    | file content =>
      simp only [resolveStep, hat]
      rfl
    | directory entries =>
      have hstay : resolveStep tree names silent = .ok names := by
        simp only [resolveStep, hat, hsilent, if_true]
      rw [hstay]
      rfl

end FileTree

namespace Workspace

open FileTree (resolveStep)

variable {w : Workspace}

theorem resolve_absolute {p : Path} (hp : p.isAbsolute = true) :
    w.resolve p = p.segments.foldlM (resolveStep w.tree) [] := by
  rw [resolve, FileTree.resolve, if_neg (by simpa using Path.text_ne_empty_of_absolute hp), hp,
    if_pos rfl]

/-- A relative path goes on where the base leads. -/
theorem resolve_join {base p : Path} (hbase : base.isAbsolute = true)
    (hrelative : p.isAbsolute = false) :
    w.resolve (base.join p) =
      (w.resolve base).bind fun names => p.segments.foldlM (resolveStep w.tree) names := by
  obtain ⟨front, last, hfront, hlast, hjoin⟩ :=
    Path.segments_join (Path.text_ne_empty_of_absolute hbase) hrelative
  obtain ⟨s, rest, hp⟩ := List.exists_cons_of_ne_nil (Path.segments_ne_nil p)
  have hskip (names : List String) :
      p.segments.foldlM (resolveStep w.tree) names =
        (last.foldlM (resolveStep w.tree) names).bind fun names =>
          p.segments.foldlM (resolveStep w.tree) names := by
    rcases hlast with rfl | rfl
    · rfl
    · have hempty : Path.isSilent "" = true := rfl
      have hsilent := FileTree.step_behind_silent w.tree names hempty s
      rw [hp, List.foldlM_cons, ← hsilent]
      simp only [List.foldlM_cons, List.foldlM_nil, bind_pure]
      exact bind_assoc (m := Except FileError) _ _ _
  rw [resolve_absolute hbase, resolve_absolute (Path.isAbsolute_join hbase p), hjoin, hfront,
    List.foldlM_append, List.foldlM_append]
  refine Eq.trans ?_ (bind_assoc (m := Except FileError) _ _ _).symm
  exact congrArg _ (funext hskip)

theorem find?_congr {p q : Path} (hsame : w.resolve p = w.resolve q) : w.find? p = w.find? q := by
  rw [find?, find?, hsame]

end Workspace

/-! ### Respelled paths -/

/-- Two absolute paths that lead to the same place and are folded to the same path. -/
structure Respelled (w : Workspace) (p q : Path) : Prop where
  absolute : p.isAbsolute = true
  absolute' : q.isAbsolute = true
  resolved : ∃ names, w.resolve p = .ok names ∧ w.resolve q = .ok names
  folded : p.folded = q.folded

namespace Respelled

variable {w : Workspace} {p q : Path} (h : Respelled w p q)

include h

theorem symm : Respelled w q p where
  absolute := h.absolute'
  absolute' := h.absolute
  resolved := by
    obtain ⟨names, hp, hq⟩ := h.resolved
    exact ⟨names, hq, hp⟩
  folded := h.folded.symm

theorem resolve_eq : w.resolve p = w.resolve q := by
  obtain ⟨names, hp, hq⟩ := h.resolved
  rw [hp, hq]

theorem find?_eq : w.find? p = w.find? q := Workspace.find?_congr h.resolve_eq

theorem canonical_eq : w.canonical p = w.canonical q := by
  rw [Workspace.canonical, Workspace.canonical, h.resolve_eq]

theorem isDirectory_eq : w.isDirectory p = w.isDirectory q := by
  rw [Workspace.isDirectory, Workspace.isDirectory, h.find?_eq]

/-! #### Joined to the same path -/

theorem resolve_join_eq (r : Path) : w.resolve (p.join r) = w.resolve (q.join r) := by
  cases hrelative : r.isAbsolute with
  | true => rw [Path.join, Path.join, if_pos hrelative, if_pos hrelative]
  | false =>
    rw [Workspace.resolve_join h.absolute hrelative, Workspace.resolve_join h.absolute' hrelative,
      h.resolve_eq]

theorem isFile_join_eq (r : Path) : w.isFile (p.join r) = w.isFile (q.join r) := by
  rw [Workspace.isFile, Workspace.isFile, Workspace.find?_congr (h.resolve_join_eq r)]

theorem isDirectory_join_eq (r : Path) : w.isDirectory (p.join r) = w.isDirectory (q.join r) := by
  rw [Workspace.isDirectory, Workspace.isDirectory, Workspace.find?_congr (h.resolve_join_eq r)]

theorem readText_join_eq (r : Path) : w.readText (p.join r) = w.readText (q.join r) := by
  rw [Workspace.readText, Workspace.readText, h.resolve_join_eq r]

theorem folded_join_eq (r : Path) : (p.join r).folded = (q.join r).folded := by
  cases hrelative : r.isAbsolute with
  | true => rw [Path.join, Path.join, if_pos hrelative, if_pos hrelative]
  | false =>
    have hcomponents := congrArg Path.components h.folded
    rw [Path.components_folded, Path.components_folded, Path.foldComponents, Path.foldComponents,
      List.reverse_inj] at hcomponents
    rw [Path.folded, Path.folded,
      Path.components_join p (Path.text_ne_empty_of_absolute h.absolute) hrelative,
      Path.components_join q (Path.text_ne_empty_of_absolute h.absolute') hrelative,
      Path.foldComponents, Path.foldComponents, List.foldl_append, List.foldl_append, hcomponents]

theorem join {r : Path} (hr : ∃ names, w.resolve (p.join r) = .ok names) :
    Respelled w (p.join r) (q.join r) where
  absolute := Path.isAbsolute_join h.absolute r
  absolute' := Path.isAbsolute_join h.absolute' r
  resolved := by
    obtain ⟨names, hnames⟩ := hr
    exact ⟨names, hnames, h.resolve_join_eq r ▸ hnames⟩
  folded := h.folded_join_eq r

/-! #### Below them -/

variable {names : List String} (hnames : ∀ n ∈ names, Path.IsPlain n)

include hnames

theorem readText_below_eq (hne : names ≠ []) :
    w.readText (p.below names) = w.readText (q.below names) := by
  rw [Path.below_eq_join hnames hne (Path.text_ne_empty_of_absolute h.absolute),
    Path.below_eq_join hnames hne (Path.text_ne_empty_of_absolute h.absolute'),
    h.readText_join_eq]

theorem folded_below_eq : (p.below names).folded = (q.below names).folded := by
  rw [Path.folded_below hnames, Path.folded_below hnames, h.folded]

end Respelled

end SourceAudit
