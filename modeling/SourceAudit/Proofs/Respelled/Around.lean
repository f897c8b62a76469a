/-
  SourceAudit/Proofs/Respelled/Around.lean
  ========================================
  **The directories around a respelled one.**

  The directories around a path are found by cutting its last segment that counts.  So the
  paths around two absolute paths with the same components have the same components, level by
  level, and when both lead somewhere they lead to the same places
  (`SameComponents.ancestors`).  So the nearest manifest is the same (`SameRoot`); for other
  spellings it is when the directory itself holds one.

  The segments that count also say what a path is folded to, so two absolute paths that lead to
  the same place are respelled, unless one has a `..` at the root (`Respelled.of_resolve`).
-/
import SourceAudit.Proofs.Respelled.Resolving
import SourceAudit.DartPackage

namespace SourceAudit

open FileTree (resolveStep)

namespace Path

/-! ### Segments that count -/

/-- The segments that are components. -/
def counts (segments : List String) : List String := segments.filter fun s => !isSilent s

theorem counts_append (front back : List String) :
    counts (front ++ back) = counts front ++ counts back :=
  List.filter_append ..

theorem counts_silent {segments : List String} (hsilent : ∀ s ∈ segments, isSilent s = true) :
    counts segments = [] := by
  rw [counts, List.filter_eq_nil_iff]
  intro s hs
  simp [hsilent s hs]

theorem segments_of_absolute {p : Path} (hp : p.isAbsolute = true) :
    ∃ rest, p.segments = "" :: rest := by
  obtain ⟨first, rest, hcut⟩ := List.exists_cons_of_ne_nil (segments_ne_nil p)
  by_cases hfirst : first = ""
  · exact ⟨rest, hfirst ▸ hcut⟩
  · rw [not_absolute_of_segments hcut hfirst] at hp
    cases hp

/-- An absolute path is the root and the segments that count. -/
theorem components_absolute {p : Path} (hp : p.isAbsolute = true) :
    p.components = .root :: (counts p.segments).map component := by
  obtain ⟨rest, hcut⟩ := segments_of_absolute hp
  rw [components, hcut]
  simp only [hp, if_true]
  rfl

theorem counts_eq {p q : Path} (hp : p.isAbsolute = true) (hq : q.isAbsolute = true)
    (hsame : p.components = q.components) : counts p.segments = counts q.segments := by
  rw [components_absolute hp, components_absolute hq, List.cons.injEq] at hsame
  rw [← map_text_component (counts p.segments), ← map_text_component (counts q.segments), hsame.2]

theorem length_segments_le (separator : Char) (s : List Char) :
    (Text.segments separator s).length ≤ s.length + 1 := by
  induction s with
  | nil => simp [Text.segments]
  | cons c rest ih =>
    obtain ⟨segment, more, hrest⟩ :=
      List.exists_cons_of_ne_nil (SourceAudit.Text.segments_ne_nil separator rest)
    rw [hrest, List.length_cons] at ih
    rw [Text.segments, hrest, List.length_cons]
    dsimp only
    split
    · simpa using ih
    · rw [List.length_cons]
      omega

theorem length_counts_le {p : Path} (hp : p.isAbsolute = true) :
    (counts p.segments).length ≤ p.text.length := by
  have hsegments : p.segments.length ≤ p.text.length + 1 := by
    rw [segments, List.length_map, ← String.length_toList]
    exact length_segments_le '/' p.text.toList
  obtain ⟨rest, hcut⟩ := segments_of_absolute hp
  have hcounts : counts p.segments = counts rest := by
    rw [hcut]
    rfl
  have hfilter : (counts rest).length ≤ rest.length := List.length_filter_le ..
  rw [hcut, List.length_cons] at hsegments
  rw [hcounts]
  omega

/-! ### The path around -/

theorem dropSilentEnd_cases (segments : List String) :
    (dropSilentEnd segments = [] ∧ ∀ s ∈ segments, isSilent s = true) ∨
      ∃ front last silent, dropSilentEnd segments = front ++ [last] ∧
        segments = front ++ last :: silent ∧ isSilent last = false ∧
        ∀ s ∈ silent, isSilent s = true := by
  obtain ⟨silent, hcut, hsilent⟩ := dropSilentEnd_append segments
  rcases List.eq_nil_or_concat (dropSilentEnd segments) with hnil | ⟨front, last, hlast⟩
  · rw [hnil, List.nil_append] at hcut
    exact .inl ⟨hnil, hcut ▸ hsilent⟩
  · rw [List.concat_eq_append] at hlast
    refine .inr ⟨front, last, silent, hlast, ?_, ?_, hsilent⟩
    · rwa [hlast, List.append_assoc, List.singleton_append] at hcut
    · have hhead := List.head?_dropWhile_not isSilent segments.reverse
      have hfirst : (segments.reverse.dropWhile isSilent).head? = some last := by
        rw [← List.getLast?_reverse, ← dropSilentEnd, hlast, List.getLast?_concat]
      rw [hfirst] at hhead
      simpa using hhead

/-- What lies around an absolute path: the path without its last segment that counts, but for
    silent segments at the end. -/
theorem parent?_absolute {p : Path} (hp : p.isAbsolute = true) :
    (counts p.segments = [] ∧ p.parent? = none) ∨
      ∃ front last silent around, p.segments = ("" :: front) ++ last :: silent ∧
        isSilent last = false ∧ (∀ s ∈ silent, isSilent s = true) ∧
        p.parent? = some around ∧ LiesAround ("" :: front) true around := by
  obtain ⟨rest, hcut⟩ := segments_of_absolute hp
  rcases dropSilentEnd_cases rest with
    ⟨hnil, hall⟩ | ⟨front, last, silent, hkept, hrest, hlast, hsilent⟩
  · refine .inl ⟨?_, ?_⟩
    · rw [hcut]
      exact counts_silent (List.forall_mem_cons.mpr ⟨rfl, hall⟩)
    · simp only [parent?, hcut, hp, if_true, hnil]
  · have hslash : ∀ s ∈ front, '/' ∉ s.toList := by
      intro s hs
      refine not_mem_segment (p := p) ?_
      rw [hcut, hrest]
      exact List.mem_cons_of_mem _ (List.mem_append_left _ hs)
    refine .inr ⟨front, last, silent, _, by rw [hcut, hrest]; rfl, hlast, hsilent, ?_,
      .withHead rfl hslash⟩
    obtain ⟨first, more, hbody⟩ := List.exists_cons_of_ne_nil (l := front ++ [last]) (by simp)
    rw [hbody] at hkept
    simp only [parent?, hcut, hp, if_true, hkept]
    rw [← hbody, List.dropLast_concat]

theorem LiesAround.absolute {front : List String} {around : Path}
    (haround : LiesAround ("" :: front) true around) : around.isAbsolute = true := by
  cases haround with
  | nothing hfront => cases hfront
  | segments kept silent more htext habsolute => exact habsolute

theorem LiesAround.counts_eq {front : List String} {absolute : Bool} {around : Path}
    (haround : LiesAround ("" :: front) absolute around) :
    counts around.segments = counts ("" :: front) := by
  cases haround with
  | nothing hfront => cases hfront
  | segments kept silent more htext habsolute hfront hsegments hsilent =>
    obtain ⟨hfirst, hsecond⟩ := List.forall_mem_append.mp hsilent
    rw [hsegments, hfront, counts_append, counts_append, counts_silent hfirst,
      counts_silent hsecond]

/-- Some `..` stands at the root, from a place `depth` names below it on. -/
def climbs : ℕ → List Component → Bool
  | _, [] => false
  | depth, .name _ :: rest => climbs (depth + 1) rest
  | 0, .up :: _ => true
  | depth + 1, .up :: rest => climbs depth rest
  | depth, _ :: rest => climbs depth rest

end Path

open SourceAudit.Path (counts climbs LiesAround)

/-! ### Where they lead -/

/-- Steps that lead somewhere lead there without the silent ones. -/
theorem FileTree.steps_counts {tree : FileTree} {names found segments : List String}
    (hsteps : segments.foldlM (resolveStep tree) names = .ok found) :
    (counts segments).foldlM (resolveStep tree) names = .ok found := by
  induction segments generalizing names with
  | nil => exact hsteps
  | cons segment rest ih =>
    obtain ⟨next, hstep, hrest⟩ := steps_cons_iff.mp hsteps
    cases hsilent : Path.isSilent segment with
    | true =>
      have hstay : [segment].foldlM (resolveStep tree) names = .ok next := by simpa using hstep
      obtain rfl := steps_silent (by simpa using hsilent) hstay
      rw [counts, List.filter_cons_of_neg (by simp [hsilent])]
      exact ih hrest
    | false =>
      rw [counts, List.filter_cons_of_pos (by simp [hsilent])]
      exact steps_cons_iff.mpr ⟨next, hstep, ih hrest⟩

variable {w : Workspace} {p q : Path}

/-- When a path leads somewhere, the path around it does. -/
theorem Workspace.resolve_around (hp : p.isAbsolute = true) {front silent : List String}
    {last : String} {around : Path} (hcut : p.segments = ("" :: front) ++ last :: silent)
    (haround : LiesAround ("" :: front) true around)
    (hfound : ∃ names, w.resolve p = .ok names) : ∃ names, w.resolve around = .ok names := by
  obtain ⟨names, hnames⟩ := hfound
  rw [resolve_absolute hp, hcut, FileTree.steps_append_iff] at hnames
  obtain ⟨inside, hfront, hlast⟩ := hnames
  -- the last segment was a step out of a directory
  obtain ⟨next, hstep, -⟩ := FileTree.steps_cons_iff.mp hlast
  obtain ⟨entries, hat, -⟩ := FileTree.resolveStep_cases hstep
  have habsolute := haround.absolute
  cases haround with
  | nothing hnil => cases hnil
  | segments kept stayed more htext _ hkept hsegments hsilent =>
    obtain ⟨hstayed, hmore⟩ := List.forall_mem_append.mp hsilent
    rw [hkept, FileTree.steps_append_iff] at hfront
    obtain ⟨place, hplace, hrest⟩ := hfront
    obtain rfl := FileTree.steps_silent hstayed hrest
    refine ⟨inside, ?_⟩
    rw [resolve_absolute habsolute, hsegments, FileTree.steps_append_iff]
    exact ⟨inside, hplace, FileTree.steps_stay hat hmore⟩

/-! ### What they are folded to -/

theorem FileTree.resolveStep_counted {tree : FileTree} {names next : List String} {segment : String}
    (hcount : Path.isSilent segment = false) (hstep : resolveStep tree names segment = .ok next) :
    (segment = ".." ∧ next = names.dropLast) ∨ (segment ≠ ".." ∧ next = names ++ [segment]) := by
  unfold resolveStep at hstep
  split at hstep
  · rw [hcount, if_neg (by decide)] at hstep
    split at hstep
    · next hup => exact .inl ⟨hup, (Except.ok.inj hstep).symm⟩
    · next hname =>
      split at hstep
      · exact .inr ⟨hname, (Except.ok.inj hstep).symm⟩
      · cases hstep
  · cases hstep
  · cases hstep

/-- Folding counted segments goes the way of the steps, as long as no `..` stands at the root. -/
theorem FileTree.fold_steps {tree : FileTree} {names found segments : List String}
    (hcount : ∀ s ∈ segments, Path.isSilent s = false)
    (hsteps : segments.foldlM (resolveStep tree) names = .ok found)
    (hinside : climbs names.length (segments.map Path.component) = false) :
    (segments.map Path.component).foldl Path.foldStep
        ((names.map Path.Component.name).reverse ++ [.root]) =
      (found.map Path.Component.name).reverse ++ [.root] := by
  induction segments generalizing names with
  | nil =>
    obtain rfl : names = found := Except.ok.inj hsteps
    rfl
  | cons segment rest ih =>
    obtain ⟨hsegment, hrest⟩ := List.forall_mem_cons.mp hcount
    obtain ⟨next, hstep, hmore⟩ := steps_cons_iff.mp hsteps
    rw [List.map_cons] at hinside ⊢
    rw [List.foldl_cons]
    rcases resolveStep_counted hsegment hstep with ⟨rfl, rfl⟩ | ⟨hname, rfl⟩
    · rcases List.eq_nil_or_concat names with rfl | ⟨front, last, rfl⟩
      · cases hinside
      · rw [List.concat_eq_append, List.dropLast_concat] at hmore
        rw [List.concat_eq_append, List.length_append] at hinside
        rw [List.concat_eq_append, List.map_append, List.reverse_append]
        exact ih hrest hmore hinside
    · have hcomponent : Path.component segment = .name segment := if_neg hname
      rw [hcomponent] at hinside ⊢
      have hdeeper := ih hrest hmore (by rwa [List.length_append])
      rwa [List.map_append, List.reverse_append] at hdeeper

theorem Workspace.folded_of_resolve (hp : p.isAbsolute = true)
    (hinside : climbs 0 p.components = false) {names : List String}
    (hnames : w.resolve p = .ok names) :
    p.folded = Path.ofComponents (.root :: names.map .name) := by
  rw [resolve_absolute hp] at hnames
  have hcount : ∀ s ∈ counts p.segments, Path.isSilent s = false := by
    intro s hs
    simpa using (List.mem_filter.mp hs).2
  rw [Path.components_absolute hp] at hinside
  have hfold : ((counts p.segments).map Path.component).foldl Path.foldStep [.root] = _ :=
    FileTree.fold_steps hcount (FileTree.steps_counts hnames) hinside
  have hstart : Path.foldStep [] .root = [.root] := rfl
  rw [Path.folded, Path.foldComponents, Path.components_absolute hp, List.foldl_cons, hstart,
    hfold, List.reverse_append, List.reverse_reverse]
  rfl

/-- Two absolute paths that lead to the same place are respelled, when neither has a `..` at the
    root. -/
theorem Respelled.of_resolve (hp : p.isAbsolute = true) (hq : q.isAbsolute = true)
    (hinside : climbs 0 p.components = false) (hinside' : climbs 0 q.components = false)
    {names : List String} (hnames : w.resolve p = .ok names) (hnames' : w.resolve q = .ok names) :
    Respelled w p q where
  absolute := hp
  absolute' := hq
  resolved := ⟨names, hnames, hnames'⟩
  folded := by
    rw [Workspace.folded_of_resolve hp hinside hnames,
      Workspace.folded_of_resolve hq hinside' hnames']

/-! ### The paths around two spellings -/

/-- Two absolute paths with the same components, which lead somewhere. -/
structure SameComponents (w : Workspace) (p q : Path) : Prop where
  absolute : p.isAbsolute = true
  absolute' : q.isAbsolute = true
  components : p.components = q.components
  leads : ∃ names, w.resolve p = .ok names
  leads' : ∃ names, w.resolve q = .ok names

namespace SameComponents

/-- Steps that count lead to the same place. -/
theorem respelled (h : SameComponents w p q) : Respelled w p q := by
  refine ⟨h.absolute, h.absolute', ?_, by rw [Path.folded, Path.folded, h.components]⟩
  obtain ⟨names, hnames⟩ := h.leads
  obtain ⟨names', hnames'⟩ := h.leads'
  have hfirst := FileTree.steps_counts (Workspace.resolve_absolute h.absolute ▸ hnames)
  have hsecond := FileTree.steps_counts (Workspace.resolve_absolute h.absolute' ▸ hnames')
  rw [Path.counts_eq h.absolute h.absolute' h.components, hsecond, Except.ok.injEq] at hfirst
  exact ⟨names, hnames, hfirst ▸ hnames'⟩

/-- The paths around have the same components as well, one segment less. -/
theorem around (h : SameComponents w p q) :
    (p.parent? = none ∧ q.parent? = none) ∨
      ∃ a b, p.parent? = some a ∧ q.parent? = some b ∧ SameComponents w a b ∧
        (counts p.segments).length = (counts a.segments).length + 1 := by
  have hcounts := Path.counts_eq h.absolute h.absolute' h.components
  have hshorter {front silent : List String} {last : String} (hlast : Path.isSilent last = false)
      (hsilent : ∀ s ∈ silent, Path.isSilent s = true) :
      counts (("" :: front) ++ last :: silent) = counts ("" :: front) ++ [last] := by
    rw [Path.counts_append, ← List.singleton_append (l := silent), Path.counts_append,
      Path.counts_silent hsilent, List.append_nil, counts, counts,
      List.filter_cons_of_pos (a := last) (by simp [hlast]), List.filter_nil]
  rcases Path.parent?_absolute h.absolute with
    ⟨hnil, hp⟩ | ⟨front, last, silent, a, hcut, hlast, hsilent, hp, ha⟩
  · rcases Path.parent?_absolute h.absolute' with
      ⟨-, hq⟩ | ⟨front, last, silent, b, hcut, hlast, hsilent, -⟩
    · exact .inl ⟨hp, hq⟩
    · rw [hnil, hcut, hshorter hlast hsilent] at hcounts
      simp at hcounts
  · rcases Path.parent?_absolute h.absolute' with
      ⟨hnil, -⟩ | ⟨front', last', silent', b, hcut', hlast', hsilent', hq, hb⟩
    · rw [hnil, hcut, hshorter hlast hsilent] at hcounts
      simp at hcounts
    · have hlength : counts p.segments = counts a.segments ++ [last] := by
        rw [hcut, hshorter hlast hsilent, ha.counts_eq]
      rw [hlength, hcut', hshorter hlast' hsilent', ← hb.counts_eq] at hcounts
      obtain ⟨hsame, -⟩ := List.append_inj' hcounts rfl
      refine .inr ⟨a, b, hp, hq, ⟨ha.absolute, hb.absolute, ?_, ?_, ?_⟩, ?_⟩
      · rw [Path.components_absolute ha.absolute, Path.components_absolute hb.absolute, hsame]
      · exact Workspace.resolve_around h.absolute hcut ha h.leads
      · exact Workspace.resolve_around h.absolute' hcut' hb h.leads'
      · rw [hlength, List.length_append, List.length_singleton]

/-- All paths around, level by level; `steps` and `steps'` are enough for all levels. -/
theorem ancestors_go {steps steps' : ℕ} (h : SameComponents w p q)
    (hsteps : (counts p.segments).length ≤ steps) (hsteps' : (counts p.segments).length ≤ steps') :
    List.Forall₂ (Respelled w) (Path.ancestors.go steps p) (Path.ancestors.go steps' q) := by
  have hhere := List.Forall₂.cons h.respelled .nil
  induction steps generalizing p q steps' with
  | zero =>
    rcases h.around with ⟨-, hq⟩ | ⟨a, -, -, -, -, hlength⟩
    · cases steps' with
      | zero => exact hhere
      | succ n => simpa only [Path.ancestors.go, hq] using hhere
    · omega
  | succ n ih =>
    rcases h.around with ⟨hp, hq⟩ | ⟨a, b, hp, hq, hsame, hlength⟩
    · cases steps' with
      | zero => simpa only [Path.ancestors.go, hp] using hhere
      | succ n => simpa only [Path.ancestors.go, hp, hq] using hhere
    · cases steps' with
      | zero => omega
      | succ n =>
        simp only [Path.ancestors.go, hp, hq]
        exact .cons h.respelled (ih hsame (by omega) (by omega) (.cons hsame.respelled .nil))

theorem ancestors (h : SameComponents w p q) :
    List.Forall₂ (Respelled w) p.ancestors q.ancestors := by
  refine h.ancestors_go (Path.length_counts_le h.absolute) ?_
  rw [Path.counts_eq h.absolute h.absolute' h.components]
  exact Path.length_counts_le h.absolute'

end SameComponents

/-! ### The nearest manifest -/

/-- The same manifest is the nearest one, or there is none. -/
def SameRoot (w : Workspace) (p q : Path) : Prop :=
  Option.Rel (Respelled w) (DartPackage.root? w p) (DartPackage.root? w q)

theorem SameComponents.sameRoot (h : SameComponents w p q) : SameRoot w p q := by
  have hfind : ∀ {ps qs : List Path}, List.Forall₂ (Respelled w) ps qs →
      Option.Rel (Respelled w) (ps.find? fun d => w.isFile (d.child Manifest.fileName))
        (qs.find? fun d => w.isFile (d.child Manifest.fileName)) := by
    intro ps qs hall
    induction hall with
    | nil => exact .none
    | @cons a b _ _ hfirst _ ih =>
      have hsame : w.isFile (a.child Manifest.fileName) = w.isFile (b.child Manifest.fileName) :=
        hfirst.isFile_join_eq ⟨Manifest.fileName⟩
      rw [List.find?_cons, List.find?_cons, hsame]
      cases w.isFile (b.child Manifest.fileName) with
      | true => exact .some hfirst
      | false => exact ih
  exact hfind h.ancestors

/-- A manifest in the directory itself is the nearest one. -/
theorem Respelled.sameRoot (h : Respelled w p q)
    (hmanifest : w.isFile (p.child Manifest.fileName) = true) : SameRoot w p q := by
  have hmanifest' : w.isFile (q.child Manifest.fileName) = true :=
    (h.isFile_join_eq ⟨Manifest.fileName⟩).symm.trans hmanifest
  have hhere {r : Path} (hr : w.isFile (r.child Manifest.fileName) = true) :
      DartPackage.root? w r = some r := by
    obtain ⟨rest, hrest⟩ : ∃ rest, r.ancestors = r :: rest := by
      rw [Path.ancestors]
      cases r.text.length with
      | zero => exact ⟨[], rfl⟩
      | succ n =>
        cases hparent : r.parent? with
        | none => exact ⟨[], by simp only [Path.ancestors.go, hparent]⟩
        | some around =>
          exact ⟨Path.ancestors.go n around, by simp only [Path.ancestors.go, hparent]⟩
    rw [DartPackage.root?, hrest, List.find?_cons, hr]
  rw [SameRoot, hhere hmanifest, hhere hmanifest']
  exact .some h

end SourceAudit
