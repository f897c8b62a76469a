/-
  SourceAudit/Proofs/RelativePaths.lean
  =====================================
  **Paths from a directory and below it.**

  A relative path leads from a directory to a place, one segment after the other: a silent
  segment stays, `..` takes one name away, and any other segment is a name to go into
  (`Leads`).  Joining and folding finds the same place (`folded_join`).

  Folded paths are written plainly, a root or nothing and then segments that count
  (`FoldedList.counted`), so that cutting them leaves plain paths again: the parent of a
  folded path is folded (`parent?_ofComponents`), and below a folded base the names are
  what is left (`relativeTo?_ofComponents`).  In general what is left of a folded path behind
  a folded base are the components behind those of the base (`relativeTo?_folded_iff`).
-/
import SourceAudit.Proofs.Paths
import Mathlib.Data.List.Induction

namespace SourceAudit.Path

/-! ### Segments that count -/

def Counted (body : List String) : Prop :=
  ∀ s ∈ body, isSilent s = false ∧ '/' ∉ s.toList

theorem IsPlain.counted {names : List String} (hnames : ∀ n ∈ names, IsPlain n) : Counted names :=
  fun n hn => ⟨(hnames n hn).1, (hnames n hn).2.2⟩

theorem IsPlain.component_eq {name : String} (hname : IsPlain name) :
    component name = .name name := by
  rw [component, if_neg hname.2.1]

namespace Counted

variable {body more : List String}

theorem append (hbody : Counted body) (hmore : Counted more) : Counted (body ++ more) := by
  intro s hs
  rcases List.mem_append.mp hs with hs | hs
  · exact hbody s hs
  · exact hmore s hs

theorem bodyComponents_eq (hbody : Counted body) : bodyComponents body = body.map component := by
  have hall : body.filter (fun s => !isSilent s) = body := by
    rw [List.filter_eq_self]
    intro s hs
    rw [(hbody s hs).1]
    rfl
  rw [bodyComponents, hall]

theorem dropWhile_eq (hbody : Counted body) : body.dropWhile isSilent = body := by
  cases body with
  | nil => rfl
  | cons s rest =>
    have hs := (hbody s (List.mem_cons_self ..)).1
    rw [List.dropWhile_cons_of_neg (by simp [hs])]

theorem dropSilentEnd_eq (hbody : Counted body) : dropSilentEnd body = body := by
  have hreverse : Counted body.reverse := fun s hs => hbody s (List.mem_reverse.mp hs)
  rw [dropSilentEnd, hreverse.dropWhile_eq, List.reverse_reverse]

theorem dropCounted_append (hbody : Counted body) (more : List String) :
    dropCounted body.length (body ++ more) = more := by
  induction body with
  | nil => simp [dropCounted]
  | cons s rest ih =>
    have hs := (hbody s (List.mem_cons_self ..)).1
    have hrest := ih fun t ht => hbody t (List.mem_cons_of_mem _ ht)
    simp [dropCounted, hs, hrest]

/-- The segments of the text; one that is empty when there are none. -/
theorem segments_eq (hbody : Counted body) :
    (ofSegments body).segments = if body = [] then [""] else body := by
  split
  next hnil =>
    subst hnil
    decide
  next hne => exact segments_ofSegments hne fun s hs => (hbody s hs).2

theorem not_absolute (hbody : Counted body) : (ofSegments body).isAbsolute = false := by
  cases body with
  | nil => decide
  | cons s rest =>
    refine not_absolute_of_segments hbody.segments_eq ?_
    rintro rfl
    simpa [isSilent] using (hbody "" (List.mem_cons_self ..)).1

theorem components_eq (hbody : Counted body) :
    (ofSegments body).components = body.map component := by
  cases body with
  | nil => decide
  | cons s rest =>
    have hs := (hbody s (List.mem_cons_self ..)).1
    rw [components_relative (fun t ht => (hbody t ht).2) _ _, hbody.bodyComponents_eq]
    · rintro rfl
      simp [isSilent] at hs
    · rintro rfl
      simp [isSilent] at hs

theorem trimmed_eq (hbody : Counted body) : (ofSegments body).trimmed = ofSegments body := by
  cases body with
  | nil => decide
  | cons s rest =>
    have hhere : s ≠ "." := by
      rintro rfl
      exact absurd (hbody "." (List.mem_cons_self ..)).1 (by decide)
    rw [trimmed, hbody.segments_eq]
    simp [hbody.not_absolute, hhere, hbody.dropSilentEnd_eq]

/-! #### Behind a root -/

theorem rooted_segments (hbody : Counted body) :
    (withHead true "" body).segments = "" :: if body = [] then [""] else body := by
  cases body with
  | nil => decide
  | cons s rest =>
    have hslash : ∀ t ∈ "" :: s :: rest, '/' ∉ t.toList := by
      intro t ht
      rcases List.mem_cons.mp ht with rfl | ht
      · decide
      · exact (hbody t ht).2
    exact segments_ofSegments (List.cons_ne_nil _ _) hslash

theorem rooted_absolute (body : List String) : (withHead true "" body).isAbsolute = true := by
  cases body with
  | nil => decide
  | cons s rest =>
    simp [withHead, isAbsolute, ofSegments, Text.joined, String.intercalate_cons_of_ne_nil]

theorem rooted_components (hbody : Counted body) :
    (withHead true "" body).components = .root :: body.map component := by
  cases body with
  | nil => decide
  | cons s rest =>
    rw [← hbody.bodyComponents_eq]
    exact components_rooted (fun t ht => (hbody t ht).2) (List.cons_ne_nil _ _)

end Counted

/-! ### Written components -/

theorem text_component (s : String) : (component s).text = s := by
  rw [component]
  split
  next hup => rw [hup, Component.text]
  next hup => rfl

theorem map_text_component (body : List String) :
    (body.map component).map Component.text = body := by
  simp [Function.comp_def, text_component]

theorem component_ne_root (s : String) : component s ≠ .root := by
  rw [component]
  split <;> simp

theorem component_ne_here (s : String) : component s ≠ .here := by
  rw [component]
  split <;> simp

theorem ofComponents_rooted (body : List String) :
    ofComponents (.root :: body.map component) = withHead true "" body := by
  cases body with
  | nil => rfl
  | cons s rest =>
    rw [ofComponents_eq (by simp), List.map_cons, map_text_component]
    rfl

theorem ofComponents_counted (body : List String) :
    ofComponents (body.map component) = ofSegments body := by
  rw [ofComponents_eq, map_text_component]
  intro hroot
  obtain ⟨s, -, hs⟩ := List.map_eq_singleton_iff.mp hroot
  exact component_ne_root s hs

/-- Folded lists are a root or nothing and segments that count. -/
theorem FoldedList.counted {cs : List Component} (hcs : FoldedList cs) :
    ∃ body, Counted body ∧ (cs = .root :: body.map component ∨ cs = body.map component) := by
  obtain ⟨base, names, hbase, hnames, rfl⟩ := hcs
  have hcounted := IsPlain.counted hnames
  have hup : Counted (".." :: names) := by
    intro s hs
    rcases List.mem_cons.mp hs with rfl | hs
    · decide
    · exact hcounted s hs
  have hcomponents : names.map component = names.map .name :=
    List.map_congr_left fun n hn => (hnames n hn).component_eq
  cases hbase with
  | nothing => exact ⟨names, hcounted, .inr hcomponents.symm⟩
  | root => exact ⟨names, hcounted, .inl (by rw [hcomponents]; rfl)⟩
  | up => exact ⟨".." :: names, hup, .inr (by rw [List.map_cons, hcomponents]; rfl)⟩
  | rootUp => exact ⟨".." :: names, hup, .inl (by rw [List.map_cons, hcomponents]; rfl)⟩

/-! ### Cutting folded paths -/

theorem parent?_ofComponents {cs : List Component} (hcs : FoldedList cs) {name : String}
    (hname : IsPlain name) : (ofComponents (cs ++ [.name name])).parent? = some (ofComponents cs) := by
  obtain ⟨body, hbody, hwritten⟩ := hcs.counted
  have hone : Counted [name] := IsPlain.counted (by simpa using hname)
  have hall : Counted (body ++ [name]) := hbody.append hone
  have hlast : (body ++ [name]).map component = body.map component ++ [.name name] := by
    rw [List.map_append, List.map_singleton, hname.component_eq]
  have hne : body ++ [name] ≠ [] := by simp
  rcases hwritten with rfl | rfl
  · rw [List.cons_append, ← hlast, ofComponents_rooted, ofComponents_rooted, parent?,
      hall.rooted_segments, if_neg hne]
    simp [Counted.rooted_absolute, hall.dropSilentEnd_eq, hbody.dropSilentEnd_eq]
  · obtain ⟨first, rest, hcut⟩ := List.exists_cons_of_ne_nil hne
    have hhere : first ≠ "." := by
      rintro rfl
      exact absurd (hall "." (hcut ▸ List.mem_cons_self ..)).1 (by decide)
    have hfront : (first :: rest).dropLast = body := by rw [← hcut, List.dropLast_concat]
    have hrelative := hall.not_absolute
    have hsegments := hall.segments_eq
    rw [if_neg hne] at hsegments
    rw [← hlast, ofComponents_counted, ofComponents_counted, parent?, hsegments]
    rw [hcut] at hrelative hall ⊢
    simp [hrelative, hhere, hall.dropSilentEnd_eq, hfront, hbody.dropSilentEnd_eq]

theorem Counted.relativeTo?_rooted {body more : List String} (hbody : Counted body)
    (hmore : Counted more) {base : Path} (hbase : base.components = .root :: body.map component) :
    (ofComponents (.root :: (body ++ more).map component)).relativeTo? base =
      some (ofSegments more) := by
  have hall : Counted (body ++ more) := hbody.append hmore
  have hstarts : (Component.root :: body.map component).isPrefixOf
      (.root :: (body ++ more).map component) = true := by simp
  rw [relativeTo?, hbase, ofComponents_rooted, hall.rooted_components, hall.rooted_segments]
  simp only [hstarts, if_true, List.length_map]
  split
  next hnil =>
    obtain ⟨rfl, rfl⟩ := List.append_eq_nil_iff.mp hnil
    rfl
  next hne =>
    rw [hbody.dropCounted_append, hmore.dropWhile_eq, hmore.dropSilentEnd_eq]

theorem Counted.relativeTo?_relative {body more : List String} (hbody : Counted body)
    (hmore : Counted more) {base : Path} (hbase : base.components = body.map component) :
    (ofComponents ((body ++ more).map component)).relativeTo? base = some (ofSegments more) := by
  have hall : Counted (body ++ more) := hbody.append hmore
  have hstarts : (body.map component).isPrefixOf ((body ++ more).map component) = true := by simp
  rw [relativeTo?, hbase, ofComponents_counted, hall.components_eq, hall.segments_eq]
  simp only [hstarts, if_true]
  cases body with
  | nil =>
    rw [List.map_nil, List.nil_append]
    exact congrArg some hmore.trimmed_eq
  | cons s rest =>
    have hsegments : (if s :: rest ++ more = [] then [""] else s :: rest ++ more) =
        s :: rest ++ more := if_neg (by simp)
    have hdropped := hbody.dropCounted_append more
    rw [hsegments, List.map_cons]
    cases hs : component s with
    | root => exact absurd hs (component_ne_root s)
    | here => exact absurd hs (component_ne_here s)
    | up =>
      simp only [List.cons_append, List.length_cons, List.length_map] at hdropped ⊢
      rw [hdropped, hmore.dropWhile_eq, hmore.dropSilentEnd_eq]
    | name n =>
      simp only [List.cons_append, List.length_cons, List.length_map] at hdropped ⊢
      rw [hdropped, hmore.dropWhile_eq, hmore.dropSilentEnd_eq]

/-- Below a folded base the names behind it are left. -/
theorem relativeTo?_ofComponents {base : Path} (hbase : FoldedList base.components)
    {names : List String} (hnames : ∀ n ∈ names, IsPlain n) :
    (ofComponents (base.components ++ names.map .name)).relativeTo? base =
      some (ofSegments names) := by
  obtain ⟨body, hbody, hwritten⟩ := hbase.counted
  have hcounted := IsPlain.counted hnames
  have hcomponents : names.map component = names.map .name :=
    List.map_congr_left fun n hn => (hnames n hn).component_eq
  rw [← hcomponents]
  rcases hwritten with hroot | hrelative
  · have hleft := hbody.relativeTo?_rooted hcounted hroot
    rw [List.map_append] at hleft
    rw [hroot, List.cons_append]
    exact hleft
  · have hleft := hbody.relativeTo?_relative hcounted hrelative
    rw [List.map_append] at hleft
    rw [hrelative]
    exact hleft

/-! ### Leading from a directory -/

/-- Segments lead from a directory to a place: `..` takes one name away, a silent segment
    nothing, and any other is a name to go into. -/
inductive Leads : List Component → List String → List Component → Prop
  | stop (cs : List Component) : Leads cs [] cs
  | stay {cs place : List Component} {s : String} {rest : List String}
      (hsilent : isSilent s = true) (hrest : Leads cs rest place) : Leads cs (s :: rest) place
  | up {cs place : List Component} {n : String} {rest : List String}
      (hrest : Leads cs rest place) : Leads (cs ++ [.name n]) (".." :: rest) place
  | down {cs place : List Component} {n : String} {rest : List String} (hname : IsPlain n)
      (hrest : Leads (cs ++ [.name n]) rest place) : Leads cs (n :: rest) place

theorem Leads.into (cs : List Component) {names : List String} (hnames : ∀ n ∈ names, IsPlain n) :
    Leads cs names (cs ++ names.map .name) := by
  induction names generalizing cs with
  | nil =>
    rw [List.map_nil, List.append_nil]
    exact .stop cs
  | cons n rest ih =>
    have hrest := ih (cs ++ [.name n]) fun m hm => hnames m (List.mem_cons_of_mem _ hm)
    rw [List.append_assoc, List.singleton_append] at hrest
    exact .down (hnames n (List.mem_cons_self ..)) hrest

/-- Up by as many names as stand behind the common part, and into the others. -/
theorem Leads.across (cs : List Component) (back : List String) {names : List String}
    (hnames : ∀ n ∈ names, IsPlain n) :
    Leads (cs ++ back.map .name) (List.replicate back.length ".." ++ names)
      (cs ++ names.map .name) := by
  induction back using List.reverseRecOn with
  | nil =>
    rw [List.map_nil, List.append_nil]
    exact .into cs hnames
  | append_singleton front last ih =>
    rw [List.map_append, ← List.append_assoc, List.length_append, List.length_singleton,
      List.replicate_succ, List.cons_append]
    exact .up ih

/-- Folding goes where the segments lead. -/
theorem Leads.foldl {cs place : List Component} {segments : List String}
    (hleads : Leads cs segments place) :
    (bodyComponents segments).foldl foldStep cs.reverse = place.reverse := by
  induction hleads with
  | stop cs => rfl
  | @stay cs place s rest hsilent _ ih =>
    have hskip : bodyComponents (s :: rest) = bodyComponents rest := by
      simp [bodyComponents, hsilent]
    rw [hskip, ih]
  | @up cs place n rest _ ih =>
    have hup : bodyComponents (".." :: rest) = .up :: bodyComponents rest := by
      simp [bodyComponents, isSilent, component]
    rw [hup, List.foldl_cons, List.reverse_append]
    simpa [foldStep] using ih
  | @down cs place n rest hname _ ih =>
    have hdown : bodyComponents (n :: rest) = .name n :: bodyComponents rest := by
      simp [bodyComponents, hname.1, hname.component_eq]
    rw [hdown, List.foldl_cons]
    simpa [foldStep] using ih

theorem FoldedList.foldl_eq {cs : List Component} (hcs : FoldedList cs) :
    cs.foldl foldStep [] = cs.reverse := by
  rw [← List.reverse_eq_iff]
  exact hcs.foldComponents_eq

theorem FoldedList.plain {cs : List Component} (hcs : FoldedList cs) {n : String}
    (hn : .name n ∈ cs) : IsPlain n := by
  obtain ⟨base, names, hbase, hnames, rfl⟩ := hcs
  rcases List.mem_append.mp hn with hn | hn
  · cases hbase <;> simp at hn
  · obtain ⟨m, hm, hsame⟩ := List.mem_map.mp hn
    obtain rfl := Component.name.inj hsame
    exact hnames m hm

/-- The segments of a path lead from a folded list to a folded list. -/
theorem FoldedList.leads {cs place : List Component} (hcs : FoldedList cs) {p : Path}
    (hleads : Leads cs p.segments place) : FoldedList place := by
  have hnames : ∀ n, .name n ∈ bodyComponents p.segments → IsPlain n := fun n hn =>
    plain_of_mem_bodyComponents (fun s hs => not_mem_segment hs) hn
  have hplace := hcs.foldl hnames
  rwa [hleads.foldl, List.reverse_reverse] at hplace

theorem components_folded (p : Path) : p.folded.components = foldComponents p.components :=
  components_ofComponents (foldedList_foldComponents p)

theorem foldedList_folded (p : Path) : FoldedList p.folded.components :=
  components_folded p ▸ foldedList_foldComponents p

theorem ofComponents_folded (p : Path) : ofComponents p.folded.components = p.folded := by
  rw [components_folded, folded]

theorem folded_folded (p : Path) : p.folded.folded = p.folded := by
  rw [folded, (foldedList_folded p).foldComponents_eq, ofComponents_folded]

/-- A `.` in front of a relative path counts in front only. -/
theorem foldComponents_relative {p : Path} (hrelative : p.isAbsolute = false) :
    foldComponents p.components = foldComponents (bodyComponents p.segments) := by
  obtain ⟨first, rest, hp⟩ := List.exists_cons_of_ne_nil (segments_ne_nil p)
  rw [components, hp]
  simp only [hrelative, Bool.false_eq_true, if_false]
  split
  next hhere =>
    subst hhere
    have hskip : bodyComponents ("." :: rest) = bodyComponents rest := by
      simp [bodyComponents, isSilent]
    rw [hskip]
    rfl
  next => rfl

/-- **Joining and folding.**  From a folded directory, a relative path is folded to the place
    it leads to. -/
theorem folded_join {base p : Path} (hbase : FoldedList base.components)
    (hrelative : p.isAbsolute = false) {place : List Component}
    (hleads : Leads base.components p.segments place) :
    (base.join p).folded = ofComponents place := by
  have hfold : foldComponents (base.components ++ bodyComponents p.segments) = place := by
    rw [foldComponents, List.foldl_append, hbase.foldl_eq, hleads.foldl, List.reverse_reverse]
  by_cases hempty : base.text = ""
  · have hjoin : base.join p = p := by simp [join, hrelative, hempty]
    have hcomponents : base.components = [] := by
      obtain ⟨text⟩ := base
      subst hempty
      decide
    rw [hcomponents, List.nil_append] at hfold
    rw [hjoin, folded, foldComponents_relative hrelative, hfold]
  · rw [folded, components_join base hempty hrelative, hfold]

/-! ### Behind a folded directory -/

/-- The two parts of a folded list: the second one begins with the root only if the first one
    is empty. -/
theorem FoldedList.cut {front tail : List Component} (hcs : FoldedList (front ++ tail)) :
    (front = [] ∧ ∃ body, Counted body ∧ tail = .root :: body.map component) ∨
      ∃ body more, Counted body ∧ Counted more ∧ tail = more.map component ∧
        (front = .root :: body.map component ∨ front = body.map component) := by
  have hsplit {body : List String} (hbody : Counted body) {front : List Component}
      (hcut : body.map component = front ++ tail) : ∃ first more, Counted first ∧ Counted more ∧
        tail = more.map component ∧ front = first.map component := by
    obtain ⟨first, more, rfl, hfirst, hmore⟩ := List.map_eq_append_iff.mp hcut
    refine ⟨first, more, fun s hs => ?_, fun s hs => ?_, hmore.symm, hfirst.symm⟩
    · exact hbody s (List.mem_append_left _ hs)
    · exact hbody s (List.mem_append_right _ hs)
  obtain ⟨body, hbody, hwritten⟩ := hcs.counted
  rcases hwritten with hrooted | hrelative
  · cases front with
    | nil => exact .inl ⟨rfl, body, hbody, hrooted⟩
    | cons c rest =>
      rw [List.cons_append, List.cons.injEq] at hrooted
      obtain ⟨rfl, hcut⟩ := hrooted
      obtain ⟨first, more, hfirst, hmore, htail, rfl⟩ := hsplit hbody hcut.symm
      exact .inr ⟨first, more, hfirst, hmore, htail, .inl rfl⟩
  · obtain ⟨first, more, hfirst, hmore, htail, rfl⟩ := hsplit hbody hrelative.symm
    exact .inr ⟨first, more, hfirst, hmore, htail, .inr rfl⟩

/-- The components behind a part of a folded list are those of a path. -/
theorem components_cut {front tail : List Component} (hcs : FoldedList (front ++ tail)) :
    (ofComponents tail).components = tail := by
  rcases hcs.cut with ⟨-, body, hbody, rfl⟩ | ⟨body, more, -, hmore, rfl, -⟩
  · rw [ofComponents_rooted, hbody.rooted_components]
  · rw [ofComponents_counted, hmore.components_eq]

theorem Counted.rooted_trimmed {body : List String} (hbody : Counted body) :
    (withHead true "" body).trimmed = withHead true "" body := by
  rw [trimmed, hbody.rooted_segments]
  simp only [Counted.rooted_absolute, Bool.true_or, if_true]
  split
  · next hnil =>
    subst hnil
    decide
  · rw [hbody.dropSilentEnd_eq]

/-- `q` is what stands behind `base` on the way to `p`, once both are folded. -/
def Behind (p base q : Path) : Prop :=
  ∃ tail, p.folded.components = base.folded.components ++ tail ∧ q = ofComponents tail

theorem relativeTo?_folded_iff {p base q : Path} :
    p.folded.relativeTo? base.folded = some q ↔ Behind p base q := by
  have hcut {tail : List Component}
      (htail : p.folded.components = base.folded.components ++ tail) :
      p.folded.relativeTo? base.folded = some (ofComponents tail) := by
    have hfolded := foldedList_folded p
    rw [htail] at hfolded
    rw [← ofComponents_folded p, htail]
    rcases hfolded.cut with ⟨hfront, body, hbody, rfl⟩ | ⟨body, more, hbody, hmore, rfl, hfront⟩
    · rw [relativeTo?, hfront, List.nil_append, ofComponents_rooted]
      exact congrArg some hbody.rooted_trimmed
    · rw [ofComponents_counted]
      rcases hfront with hfront | hfront
      · rw [hfront, List.cons_append, ← List.map_append]
        exact hbody.relativeTo?_rooted hmore hfront
      · rw [hfront, ← List.map_append]
        exact hbody.relativeTo?_relative hmore hfront
  constructor
  · intro hrelative
    have hprefix : base.folded.components <+: p.folded.components := by
      rw [relativeTo?] at hrelative
      split at hrelative
      · next hstarts => exact List.isPrefixOf_iff_prefix.mp hstarts
      · cases hrelative
    obtain ⟨tail, htail⟩ := hprefix
    rw [hcut htail.symm] at hrelative
    exact ⟨tail, htail.symm, (Option.some.inj hrelative).symm⟩
  · rintro ⟨tail, htail, rfl⟩
    exact hcut htail

/-- Nothing stands behind a directory on the way to itself only. -/
theorem Behind.text_eq_empty_iff {p base q : Path} (h : Behind p base q) :
    q.text = "" ↔ p.folded = base.folded := by
  obtain ⟨tail, htail, rfl⟩ := h
  have hfolded := foldedList_folded p
  rw [htail] at hfolded
  constructor
  · intro hempty
    have hpath : ofComponents tail = ⟨""⟩ := by rw [← hempty]
    have hnone : tail = [] := by
      rw [← components_cut hfolded, hpath]
      decide
    rw [← ofComponents_folded p, htail, hnone, List.append_nil, ofComponents_folded]
  · intro hsame
    rw [hsame] at htail
    have hnone : tail = [] := List.append_right_eq_self.mp htail.symm
    rw [hnone]
    decide

end SourceAudit.Path
