/-
  SourceAudit/Proofs/Respelled/Shown.lean
  =======================================
  **Folded paths behind a root that is not folded.**

  Two rules fold the paths of files and show them behind the root as it is written.  Below a
  direct root, one that folding leaves as it is, that gives the names behind it
  (`Path.displayedFrom_direct`).  Any other root starts no folded path, so the whole path is
  shown (`Path.displayedFrom_folded`), which is longer (`Path.shown_longer`).  What these rules
  find is a list of findings, and the root only says how they are shown (`Finding.shown`).
-/
import SourceAudit.Proofs.Respelled.Around
import SourceAudit.Proofs.ImportSpellings
import SourceAudit.Violation

namespace SourceAudit

namespace Path

/-! ### Direct paths -/

/-- No `..` takes a component away. -/
def IsDirect (p : Path) : Prop := p.folded.components = p.components

instance (p : Path) : Decidable p.IsDirect := inferInstanceAs (Decidable (_ = _))

theorem IsDirect.foldedList {p : Path} (hp : p.IsDirect) : FoldedList p.components :=
  hp ▸ foldedList_folded p

theorem FoldedList.isDirect {p : Path} (hp : FoldedList p.components) : p.IsDirect := by
  rw [IsDirect, components_folded, hp.foldComponents_eq]

/-- What a folded list starts with is folded. -/
theorem FoldedList.of_front {cs front : List Component} (hcs : FoldedList cs)
    (hfront : front <+: cs) : FoldedList front := by
  obtain ⟨base, names, hbase, hnames, rfl⟩ := hcs
  rcases List.prefix_or_prefix_of_prefix hfront (List.prefix_append base _) with hinside | hbehind
  · have hnil : FoldedList [] := ⟨[], [], .nothing, List.forall_mem_nil _, rfl⟩
    have hroot : FoldedList [.root] := ⟨[.root], [], .root, List.forall_mem_nil _, rfl⟩
    have hbare : FoldedList base :=
      ⟨base, [], hbase, List.forall_mem_nil _, (List.append_nil _).symm⟩
    cases hbase with
    | nothing => exact List.prefix_nil.mp hinside ▸ hnil
    | up =>
      rcases List.prefix_cons_iff.mp hinside with rfl | ⟨t, rfl, ht⟩
      · exact hnil
      · exact List.prefix_nil.mp ht ▸ hbare
    | root =>
      rcases List.prefix_cons_iff.mp hinside with rfl | ⟨t, rfl, ht⟩
      · exact hnil
      · exact List.prefix_nil.mp ht ▸ hbare
    | rootUp =>
      rcases List.prefix_cons_iff.mp hinside with rfl | ⟨t, rfl, ht⟩
      · exact hnil
      · rcases List.prefix_cons_iff.mp ht with rfl | ⟨u, rfl, hu⟩
        · exact hroot
        · exact List.prefix_nil.mp hu ▸ hbare
  · obtain ⟨tail, rfl⟩ := hbehind
    rw [List.prefix_append_right_inj, List.prefix_iff_eq_take, ← List.map_take] at hfront
    refine ⟨base, names.take tail.length, hbase, ?_, by rw [hfront]; simp⟩
    exact fun n hn => hnames n (List.mem_of_mem_take hn)

/-! ### How folded paths are shown -/

/-- The components of the base decide. -/
theorem displayedFrom_congr {p q : Path} (hsame : p.components = q.components) (r : Path) :
    r.displayedFrom p = r.displayedFrom q := by
  rw [displayedFrom, displayedFrom, relativeTo?, relativeTo?, hsame]

/-- Behind a root that is not direct nothing is cut off. -/
theorem displayedFrom_folded {p : Path} (hp : ¬ p.IsDirect) (r : Path) :
    r.folded.displayedFrom p = r.folded.slashText := by
  have hstarts : p.components.isPrefixOf r.folded.components = false := by
    rw [Bool.eq_false_iff, Ne, List.isPrefixOf_iff_prefix]
    exact fun hprefix => hp (FoldedList.of_front (foldedList_folded r) hprefix).isDirect
  rw [displayedFrom, relativeTo?, hstarts]
  rfl

section

variable {p : Path} {names : List String} (hnames : ∀ n ∈ names, IsPlain n)

include hnames

/-- Behind a direct root the names are shown. -/
theorem displayedFrom_direct (hp : p.IsDirect) :
    (p.below names).folded.displayedFrom p = (ofSegments names).slashText := by
  rw [folded_below hnames, hp, displayedFrom, relativeTo?_ofComponents hp.foldedList hnames,
    Option.getD_some]

/-- The whole path is longer than the names behind a direct root. -/
theorem shown_longer (hne : names ≠ []) (habsolute : p.isAbsolute = true) (hp : p.IsDirect) :
    (ofSegments names).slashText.length < (p.below names).folded.slashText.length := by
  have hwritten : (p.below names).folded = ofSegments (("" :: counts p.segments) ++ names) := by
    have hcomponents : names.map component = names.map .name :=
      List.map_congr_left fun n hn => (hnames n hn).component_eq
    obtain ⟨first, rest, hcut⟩ := List.exists_cons_of_ne_nil (l := counts p.segments ++ names)
      (List.append_ne_nil_of_right_ne_nil _ hne)
    rw [folded_below hnames, hp, components_absolute habsolute, ← hcomponents, List.cons_append,
      ← List.map_append, ofComponents_rooted, List.cons_append, hcut]
    rfl
  rw [ImportBoundary.length_slashText, ImportBoundary.length_slashText, hwritten, ofSegments,
    ofSegments, Text.joined, Text.joined,
    String.intercalate_append_of_ne_nil (List.cons_ne_nil _ _) hne, String.length_append,
    String.length_append]
  have hslash : "/".length = 1 := rfl
  dsimp only
  omega

end

end Path

/-! ### Findings -/

/-- What a rule has found in a file. -/
structure Finding where
  file : Path
  severity : Severity
  /-- The message, once it is known how the file is shown. -/
  message : String → String

namespace Finding

/-- The finding as a violation, with its file shown behind a root. -/
def shown (rule : String) (root : Path) (f : Finding) : Violation :=
  ⟨f.file.displayedFrom root, rule, f.severity, f.message (f.file.displayedFrom root), none⟩

/-- Two roots that are both direct, or both not, show the same. -/
theorem shown_eq {p q : Path} (hfolded : p.folded = q.folded) (hdirect : p.IsDirect ↔ q.IsDirect)
    {f : Finding} (hfile : ∃ r : Path, f.file = r.folded) (rule : String) :
    f.shown rule p = f.shown rule q := by
  have hshown : f.file.displayedFrom p = f.file.displayedFrom q := by
    by_cases hp : p.IsDirect
    · have hq := hdirect.mp hp
      rw [Path.IsDirect] at hp hq
      exact Path.displayedFrom_congr (hp.symm.trans (hfolded ▸ hq)) f.file
    · obtain ⟨r, hr⟩ := hfile
      rw [hr, Path.displayedFrom_folded hp, Path.displayedFrom_folded (mt hdirect.mpr hp)]
  rw [shown, shown, hshown]

/-- A direct root and one that is not show a file below them by texts of different lengths. -/
theorem shown_ne {p q : Path} (habsolute : p.isAbsolute = true) (hp : p.IsDirect)
    (hq : ¬ q.IsDirect) {f : Finding} {names : List String} (hnames : ∀ n ∈ names, Path.IsPlain n)
    (hne : names ≠ []) (hfile : f.file = (p.below names).folded) (rule : String) :
    f.shown rule p ≠ f.shown rule q := by
  intro hsame
  have hshown := congrArg Violation.file hsame
  rw [shown, shown, hfile, Path.displayedFrom_direct hnames hp, Path.displayedFrom_folded hq]
    at hshown
  exact absurd (congrArg String.length hshown)
    (Nat.ne_of_lt (Path.shown_longer hnames hne habsolute hp))

end Finding

end SourceAudit
