/-
  SourceAudit/Proofs/FoldedPlaces.lean
  ====================================
  **Where a folded path leads.**

  From a directory a path leads to a place, one component after the other (`placeFrom`).  What
  it comes to is a number of levels up and the names to go into from there (`wayOf`), and from
  a directory deep enough it leads nowhere else — `placeFrom_eq`.

  Folding keeps the names.  Of the levels it keeps only whether their number is odd, since a
  `..` that stays takes the next one away — `components_folded_way`.  At the root that changes
  no place, but a `..` may be left; from any other directory a path that goes up by two levels
  or more leads elsewhere when it is folded — `isNormalForm_folded_iff`.
-/
import SourceAudit.Proofs.RelativePaths
import SourceAudit.Threshold.Resolver

namespace SourceAudit.Path

/-! ### Places -/

/-- The directory that a component leads to from another one.  A directory is given by the
    names on the way from the root, the last one first; around the root there is only the
    root. -/
def Component.next (place : List String) : Component → List String
  | .root => []
  | .here => place
  | .up => place.tail
  | .name s => s :: place

def placeFrom (start : List String) (components : List Component) : List String :=
  components.foldl Component.next start

/-- What components come to: so many levels up, and from there into names, the last one
    first. -/
structure Way where
  levels : Nat
  names : List String
deriving DecidableEq, Repr

def Way.step (way : Way) : Component → Way
  | .root => ⟨0, []⟩
  | .here => way
  | .up =>
    match way.names with
    | [] => ⟨way.levels + 1, []⟩
    | _ :: names => ⟨way.levels, names⟩
  | .name s => ⟨way.levels, s :: way.names⟩

def wayOf (components : List Component) : Way := components.foldl Way.step ⟨0, []⟩

def Way.place (way : Way) (start : List String) : List String :=
  way.names ++ start.drop way.levels

theorem Way.place_step (way : Way) (start : List String) {c : Component} (hc : c ≠ .root) :
    (way.step c).place start = c.next (way.place start) := by
  obtain ⟨levels, names⟩ := way
  cases c with
  | root => exact absurd rfl hc
  | here => rfl
  | name s => rfl
  | up =>
    cases names with
    | nil => simp [Way.step, Way.place, Component.next]
    | cons n names => rfl

/-- Without a root, components lead where their way leads. -/
theorem placeFrom_eq {cs : List Component} (hcs : .root ∉ cs) (start : List String) :
    placeFrom start cs = (wayOf cs).place start := by
  have hsteps (way : Way) : cs.foldl Component.next (way.place start) =
      (cs.foldl Way.step way).place start := by
    induction cs generalizing way with
    | nil => rfl
    | cons c rest ih =>
      rw [List.mem_cons, not_or] at hcs
      rw [List.foldl_cons, List.foldl_cons, ← way.place_step start (Ne.symm hcs.1), ih hcs.2]
  exact hsteps ⟨0, []⟩

/-- Behind a root it does not matter where a path starts. -/
theorem placeFrom_root (start : List String) {cs : List Component} (hcs : .root ∉ cs) :
    placeFrom start (.root :: cs) = (wayOf cs).names := by
  change placeFrom [] cs = (wayOf cs).names
  rw [placeFrom_eq hcs, Way.place, List.drop_nil, List.append_nil]

/-- Levels up and names behind them are a way of their own. -/
theorem wayOf_plain (levels : Nat) (names : List String) :
    wayOf (List.replicate levels .up ++ names.map .name) = ⟨levels, names.reverse⟩ := by
  have hup : (List.replicate levels Component.up).foldl Way.step ⟨0, []⟩ = ⟨levels, []⟩ := by
    induction levels with
    | zero => rfl
    | succ n ih => rw [List.replicate_succ', List.foldl_append, ih]; rfl
  have hinto (front : List String) : (names.map Component.name).foldl Way.step ⟨levels, front⟩ =
      ⟨levels, names.reverse ++ front⟩ := by
    induction names generalizing front with
    | nil => rfl
    | cons n rest ih => simp [Way.step, ih]
  rw [wayOf, List.foldl_append, hup, hinto, List.append_nil]

/-! ### Folding -/

/-- The components before the first that is not the root. -/
def rootOf (p : Path) : List Component := if p.isAbsolute then [.root] else []

/-- A path has no root but the one in front. -/
theorem exists_components (p : Path) :
    ∃ cs, .root ∉ cs ∧ p.components = p.rootOf ++ cs := by
  have hbody (segments : List String) : .root ∉ bodyComponents segments := by
    intro hroot
    obtain ⟨s, -, hs⟩ := List.mem_map.mp hroot
    exact component_ne_root s hs
  obtain ⟨first, rest, hp⟩ := List.exists_cons_of_ne_nil (segments_ne_nil p)
  rw [components, hp, rootOf]
  dsimp only
  split
  · exact ⟨_, hbody rest, rfl⟩
  · split
    · exact ⟨.here :: bodyComponents rest, by simp [hbody rest], rfl⟩
    · exact ⟨_, hbody (first :: rest), rfl⟩

/-- A folded list, the last component first, that a way comes to: a `..` stays when the number
    of levels is odd. -/
def Way.folded (root : List Component) (way : Way) : List Component :=
  way.names.map .name ++ (List.replicate (way.levels % 2) .up ++ root)

theorem Way.foldStep_folded {root : List Component} (hroot : root = [] ∨ root = [.root])
    (way : Way) {c : Component} (hc : c ≠ .root) :
    foldStep (way.folded root) c = (way.step c).folded root := by
  obtain ⟨levels, names⟩ := way
  cases c with
  | root => exact absurd rfl hc
  | here => rfl
  | name s => rfl
  | up =>
    cases names with
    | cons n names => rfl
    | nil =>
      -- the first `..` that finds no name stays, and the next one takes it away
      rcases Nat.mod_two_eq_zero_or_one levels with heven | hodd
      · have hnext : (levels + 1) % 2 = 1 := by omega
        rcases hroot with rfl | rfl <;> simp [Way.step, Way.folded, heven, hnext, foldStep]
      · have hnext : (levels + 1) % 2 = 0 := by omega
        rcases hroot with rfl | rfl <;> simp [Way.step, Way.folded, hodd, hnext, foldStep]

theorem Way.foldl_folded {root cs : List Component} (hroot : root = [] ∨ root = [.root])
    (hcs : .root ∉ cs) (way : Way) :
    cs.foldl foldStep (way.folded root) = (cs.foldl Way.step way).folded root := by
  induction cs generalizing way with
  | nil => rfl
  | cons c rest ih =>
    rw [List.mem_cons, not_or] at hcs
    rw [List.foldl_cons, List.foldl_cons, way.foldStep_folded hroot (Ne.symm hcs.1), ih hcs.2]

theorem rootOf_cases (p : Path) : p.rootOf = [] ∨ p.rootOf = [.root] := by
  rw [rootOf]
  split
  · exact .inr rfl
  · exact .inl rfl

theorem wayOf_rootOf (p : Path) (cs : List Component) : wayOf (p.rootOf ++ cs) = wayOf cs := by
  rcases p.rootOf_cases with hroot | hroot <;> rw [hroot] <;> rfl

/-- Folding keeps the root, one `..` for an odd number of levels, and the names. -/
theorem components_folded_way (p : Path) : p.folded.components =
    p.rootOf ++ (List.replicate ((wayOf p.components).levels % 2) .up ++
      (wayOf p.components).names.reverse.map .name) := by
  obtain ⟨cs, hcs, hp⟩ := exists_components p
  have hstart : p.rootOf.foldl foldStep [] = (⟨0, []⟩ : Way).folded p.rootOf := by
    rcases p.rootOf_cases with hroot | hroot <;> rw [hroot] <;> rfl
  have hfold := Way.foldl_folded p.rootOf_cases hcs ⟨0, []⟩
  rw [components_folded, foldComponents, hp, wayOf_rootOf, List.foldl_append, hstart, hfold]
  rcases p.rootOf_cases with hroot | hroot <;> simp [hroot, Way.folded, wayOf]

theorem isAbsolute_iff_root {p : Path} : p.isAbsolute = true ↔ .root ∈ p.components := by
  obtain ⟨cs, hcs, hp⟩ := exists_components p
  rw [hp, rootOf]
  split
  next habsolute => simp [habsolute]
  next hrelative => simp [hrelative, hcs]

theorem isAbsolute_folded (p : Path) : p.folded.isAbsolute = p.isAbsolute := by
  rw [Bool.eq_iff_iff, isAbsolute_iff_root, components_folded_way, rootOf]
  cases p.isAbsolute <;> simp

/-- A folded path leads into the same names, from the directory around the start when the
    number of levels is odd. -/
theorem placeFrom_folded (p : Path) (start : List String) :
    placeFrom start p.folded.components = if p.isAbsolute then (wayOf p.components).names
      else (wayOf p.components).names ++ start.drop ((wayOf p.components).levels % 2) := by
  have hroot : Component.root ∉ List.replicate ((wayOf p.components).levels % 2) .up ++
      (wayOf p.components).names.reverse.map .name := by simp
  rw [components_folded_way, rootOf]
  split
  · rw [List.singleton_append, placeFrom_root start hroot, wayOf_plain, List.reverse_reverse]
  · rw [List.nil_append, placeFrom_eq hroot, wayOf_plain, List.reverse_reverse, Way.place]

theorem placeFrom_components (p : Path) (start : List String) :
    placeFrom start p.components = if p.isAbsolute then (wayOf p.components).names
      else (wayOf p.components).names ++ start.drop (wayOf p.components).levels := by
  obtain ⟨cs, hcs, hp⟩ := exists_components p
  rw [hp, wayOf_rootOf, rootOf]
  split
  · exact placeFrom_root start hcs
  · exact placeFrom_eq hcs start

/-! ### Normal forms -/

/-- What folding is for: of a path `p` it should make a path without `.` that leads to the same
    place, from the root or from any directory deep enough, and in which `..` stands only in
    front of a relative path, once for each level that `p` goes up. -/
structure IsNormalForm (p q : Path) : Prop where
  kind : q.isAbsolute = p.isAbsolute
  here : .here ∉ q.components
  place : ∀ start, (p.isAbsolute = false → (wayOf p.components).levels ≤ start.length) →
    placeFrom start q.components = placeFrom start p.components
  rooted : q.isAbsolute = true → .up ∉ q.components
  relative : q.isAbsolute = false → ∃ names : List String,
    q.components = List.replicate (wayOf p.components).levels .up ++ names.map .name

theorem here_not_mem_folded (p : Path) : .here ∉ p.folded.components := by
  rw [components_folded_way, rootOf]
  split <;> simp

/-- From a directory deep enough, one level up and no level up are kept. -/
theorem placeFrom_folded_iff (p : Path) {start : List String}
    (hdeep : p.isAbsolute = false → (wayOf p.components).levels ≤ start.length) :
    placeFrom start p.folded.components = placeFrom start p.components ↔
      p.isAbsolute = true ∨ (wayOf p.components).levels ≤ 1 := by
  rw [placeFrom_folded, placeFrom_components]
  cases habsolute : p.isAbsolute with
  | true => simp
  | false =>
    have hlevels := hdeep habsolute
    simp only [Bool.false_eq_true, if_false, List.append_cancel_left_eq, false_or]
    constructor
    · intro hsame
      have hlength := congrArg List.length hsame
      rw [List.length_drop, List.length_drop] at hlength
      omega
    · intro hfew
      rw [Nat.mod_eq_of_lt (by omega)]

theorem isNormalForm_folded_iff (p : Path) : p.IsNormalForm p.folded ↔
    if p.isAbsolute then (wayOf p.components).levels % 2 = 0
    else (wayOf p.components).levels ≤ 1 := by
  cases habsolute : p.isAbsolute with
  | true =>
    rw [if_pos rfl]
    have hup : .up ∉ p.folded.components ↔ (wayOf p.components).levels % 2 = 0 := by
      rw [components_folded_way, rootOf, habsolute]
      simp
    constructor
    · intro h
      exact hup.mp (h.rooted (by rw [isAbsolute_folded, habsolute]))
    · intro heven
      have hplace (start : List String) :
          placeFrom start p.folded.components = placeFrom start p.components :=
        (placeFrom_folded_iff p (by simp [habsolute])).mpr (.inl habsolute)
      refine ⟨isAbsolute_folded p, here_not_mem_folded p, fun start _ => hplace start,
        fun _ => hup.mpr heven, fun hrelative => ?_⟩
      rw [isAbsolute_folded, habsolute] at hrelative
      cases hrelative
  | false =>
    rw [if_neg Bool.false_ne_true]
    have hfolded := components_folded_way p
    rw [rootOf, habsolute, if_neg Bool.false_ne_true, List.nil_append] at hfolded
    constructor
    · intro h
      obtain ⟨names, hnames⟩ := h.relative (by rw [isAbsolute_folded, habsolute])
      have hcount := congrArg (List.count .up) (hfolded.symm.trans hnames)
      simp only [List.count_append, List.count_replicate_self] at hcount
      have hnone (names : List String) : (names.map Component.name).count .up = 0 := by
        simp [List.count_eq_zero]
      rw [hnone, hnone] at hcount
      omega
    · intro hfew
      have hlevels : (wayOf p.components).levels % 2 = (wayOf p.components).levels :=
        Nat.mod_eq_of_lt (by omega)
      rw [hlevels] at hfolded
      refine ⟨isAbsolute_folded p, here_not_mem_folded p,
        fun start hdeep => (placeFrom_folded_iff p hdeep).mpr (.inr hfew), fun hrooted => ?_,
        fun _ => ⟨_, hfolded⟩⟩
      rw [isAbsolute_folded, habsolute] at hrooted
      cases hrooted

/-- **What folding keeps of a path.**  There is no `.` left.  The root and the names stay, and of
    the levels that the path goes up one, when their number is odd.  So from every directory
    that is deep enough the folded path leads to the same place exactly when the path is
    absolute or goes up by one level at most, and it is in normal form exactly when, besides,
    an absolute path goes above the root an even number of times. -/
theorem folded_keeps_one_level (p : Path) :
    let way := wayOf p.components
    .here ∉ p.folded.components ∧
      p.folded.components = p.rootOf ++
        (List.replicate (way.levels % 2) .up ++ way.names.reverse.map .name) ∧
      (∀ start, (p.isAbsolute = false → way.levels ≤ start.length) →
        (placeFrom start p.folded.components = placeFrom start p.components ↔
          p.isAbsolute = true ∨ way.levels ≤ 1)) ∧
      (p.IsNormalForm p.folded ↔
        if p.isAbsolute then way.levels % 2 = 0 else way.levels ≤ 1) := by
  intro way
  refine ⟨here_not_mem_folded p, components_folded_way p, ?_, isNormalForm_folded_iff p⟩
  intro start hdeep
  exact placeFrom_folded_iff p hdeep

/-- A file two levels above the base is taken for one below it. -/
theorem two_levels_are_forgotten :
    let p : Path := ⟨"../../lib/a.dart"⟩
    p.folded = ⟨"lib/a.dart"⟩ ∧ ¬ p.IsNormalForm p.folded ∧
      placeFrom ["c", "b", "a"] p.components = ["a.dart", "lib", "a"] ∧
      placeFrom ["c", "b", "a"] p.folded.components = ["a.dart", "lib", "c", "b", "a"] ∧
      (⟨⟨"."⟩, none⟩ : Resolver).projections p = ["lib/a.dart", "a.dart"] := by
  intro p
  have hlevels : (wayOf p.components).levels = 2 := by decide
  have habsolute : p.isAbsolute = false := by decide
  refine ⟨by decide, fun hnormal => ?_, by decide, by decide, by decide +kernel⟩
  rw [isNormalForm_folded_iff, habsolute, hlevels] at hnormal
  exact absurd hnormal (by decide)

end SourceAudit.Path
