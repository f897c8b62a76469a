/-
  SourceAudit/Proofs/Paths.lean
  =============================
  **Order, children and folding of paths.**

  `Path.le` compares components only: it is a total order on component lists
  (`le_total`, `le_trans`, `components_eq_of_le`), so paths with the same components
  stand at the same place.

  A plain name adds one component to any path (`components_child`), however the path
  is written.  A folded list of components is a base, which is nothing, the root or
  one `..`, followed by plain names (`FoldedList`).  Writing such a list and reading
  it back gives it again, and so does folding it once more; below a folded path,
  folding therefore keeps all components (`components_folded_below`).
-/
import SourceAudit.Path

namespace SourceAudit.Path

/-! ### Order -/

theorem Component.before_irrefl (a : Component) : a.before a = false := by
  cases a <;> simp [Component.before]

theorem Component.before_or (a b : Component) :
    a.before b = true ∨ a = b ∨ b.before a = true := by
  cases a with
  | name s =>
    cases b with
    | name t =>
      by_cases hst : s < t
      · exact .inl (by simp [Component.before, hst])
      · by_cases hts : t < s
        · exact .inr (.inr (by simp [Component.before, hts]))
        · exact .inr (.inl (congrArg _
            (String.le_antisymm (String.not_lt.mp hts) (String.not_lt.mp hst))))
    | root => exact .inr (.inr rfl)
    | here => exact .inr (.inr rfl)
    | up => exact .inr (.inr rfl)
  | root => cases b <;> simp [Component.before, Component.kindRank]
  | here => cases b <;> simp [Component.before, Component.kindRank]
  | up => cases b <;> simp [Component.before, Component.kindRank]

theorem Component.before_trans {a b c : Component} (hab : a.before b = true)
    (hbc : b.before c = true) : a.before c = true := by
  cases b with
  | name t =>
    cases c with
    | name u =>
      cases a with
      | name s =>
        simp only [Component.before, decide_eq_true_eq] at hab hbc ⊢
        exact String.lt_trans hab hbc
      | root => rfl
      | here => rfl
      | up => rfl
    | root => simp [Component.before, Component.kindRank] at hbc
    | here => simp [Component.before, Component.kindRank] at hbc
    | up => simp [Component.before, Component.kindRank] at hbc
  | root => cases a <;> simp [Component.before, Component.kindRank] at hab
  | here => cases a <;> cases c <;> simp_all [Component.before, Component.kindRank]
  | up => cases a <;> cases c <;> simp_all [Component.before, Component.kindRank]

theorem Component.not_before_of_before {a b : Component} (hab : a.before b = true) :
    b.before a = false := by
  cases hba : b.before a with
  | false => rfl
  | true =>
    have haa := Component.before_trans hab hba
    rw [Component.before_irrefl] at haa
    cases haa

theorem componentsLe_cons {a b : Component} {as bs : List Component} :
    componentsLe (a :: as) (b :: bs) = true ↔
      a.before b = true ∨ a = b ∧ componentsLe as bs = true := by
  simp [componentsLe]

theorem componentsLe_total (as bs : List Component) :
    componentsLe as bs = true ∨ componentsLe bs as = true := by
  induction as generalizing bs with
  | nil => exact .inl rfl
  | cons a as ih =>
    cases bs with
    | nil => exact .inr rfl
    | cons b bs =>
      simp only [componentsLe_cons]
      rcases Component.before_or a b with hlt | rfl | hgt
      · exact .inl (.inl hlt)
      · rcases ih bs with hle | hge
        · exact .inl (.inr ⟨rfl, hle⟩)
        · exact .inr (.inr ⟨rfl, hge⟩)
      · exact .inr (.inl hgt)

theorem componentsLe_trans {as bs cs : List Component} (hab : componentsLe as bs = true)
    (hbc : componentsLe bs cs = true) : componentsLe as cs = true := by
  induction as generalizing bs cs with
  | nil => rfl
  | cons a as ih =>
    cases bs with
    | nil => cases hab
    | cons b bs =>
      cases cs with
      | nil => cases hbc
      | cons c cs =>
        rw [componentsLe_cons] at hab hbc ⊢
        rcases hab with hab | ⟨rfl, hab⟩
        · rcases hbc with hbc | ⟨rfl, -⟩
          · exact .inl (Component.before_trans hab hbc)
          · exact .inl hab
        · rcases hbc with hbc | ⟨rfl, hbc⟩
          · exact .inl hbc
          · exact .inr ⟨rfl, ih hab hbc⟩

theorem componentsLe_antisymm {as bs : List Component} (hab : componentsLe as bs = true)
    (hba : componentsLe bs as = true) : as = bs := by
  induction as generalizing bs with
  | nil =>
    cases bs with
    | nil => rfl
    | cons b bs => cases hba
  | cons a as ih =>
    cases bs with
    | nil => cases hab
    | cons b bs =>
      rw [componentsLe_cons] at hab hba
      rcases hab with hab | ⟨rfl, hab⟩
      · have hnot := Component.not_before_of_before hab
        rcases hba with hba | ⟨rfl, -⟩
        · rw [hnot] at hba
          cases hba
        · rw [Component.before_irrefl] at hab
          cases hab
      · rcases hba with hba | ⟨-, hba⟩
        · rw [Component.before_irrefl] at hba
          cases hba
        · rw [ih hab hba]

theorem le_total (p q : Path) : p.le q = true ∨ q.le p = true :=
  componentsLe_total p.components q.components

theorem le_trans {p q r : Path} (hpq : p.le q = true) (hqr : q.le r = true) : p.le r = true :=
  componentsLe_trans hpq hqr

/-- Two paths at the same place of the order have the same components. -/
theorem components_eq_of_le {p q : Path} (hpq : p.le q = true) (hqp : q.le p = true) :
    p.components = q.components :=
  componentsLe_antisymm hpq hqp

theorem le_congr {p p' q q' : Path} (hp : p.components = p'.components)
    (hq : q.components = q'.components) : p.le q = p'.le q' := by
  rw [le, le, hp, hq]

/-- A list that stands in path order, each path once. -/
def Increasing (paths : List Path) : Prop :=
  paths.Pairwise fun p q => p.le q = true ∧ p.components ≠ q.components

theorem increasing_mergeSort {paths : List Path}
    (hapart : paths.Pairwise fun p q => p.components ≠ q.components) :
    Increasing (paths.mergeSort le) := by
  have hsorted : (paths.mergeSort le).Pairwise fun p q => p.le q = true := by
    refine List.pairwise_mergeSort ?_ ?_ paths
    · intro p q r hpq hqr
      exact le_trans hpq hqr
    · intro p q
      rw [Bool.or_eq_true]
      exact le_total p q
  refine hsorted.and ?_
  exact ((List.mergeSort_perm paths le).pairwise_iff (fun hne => Ne.symm hne)).mpr hapart

theorem Increasing.filter {paths : List Path} (hpaths : Increasing paths) (keep : Path → Bool) :
    Increasing (paths.filter keep) :=
  List.Pairwise.filter keep hpaths

/-- A map that keeps components keeps the order. -/
theorem Increasing.map {paths : List Path} (hpaths : Increasing paths) {f : Path → Path}
    (hf : ∀ p ∈ paths, (f p).components = p.components) : Increasing (paths.map f) := by
  rw [Increasing, List.pairwise_map]
  refine List.Pairwise.imp_of_mem ?_ hpaths
  intro p q hp hq hpq
  refine ⟨?_, ?_⟩
  · rw [le_congr (hf p hp) (hf q hq)]
    exact hpq.1
  · rw [hf p hp, hf q hq]
    exact hpq.2

/-- Such a list is known by its members. -/
theorem Increasing.eq_of_mem_iff {ps qs : List Path} (hps : Increasing ps) (hqs : Increasing qs)
    (hmem : ∀ p, p ∈ ps ↔ p ∈ qs) : ps = qs := by
  have hnodup {l : List Path} (hl : Increasing l) : l.Nodup := by
    refine List.Pairwise.imp ?_ hl
    rintro p q hpq rfl
    exact hpq.2 rfl
  have hperm : ps.Perm qs :=
    (List.perm_ext_iff_of_nodup (hnodup hps) (hnodup hqs)).mpr hmem
  refine hperm.eq_of_pairwise ?_ hps hqs
  intro p q _ _ hpq hqp
  exact absurd (components_eq_of_le hpq.1 hqp.1) hpq.2

/-! ### Children -/

/-- What an entry of a directory can be called. -/
def IsPlain (name : String) : Prop :=
  isSilent name = false ∧ name ≠ ".." ∧ '/' ∉ name.toList

instance (name : String) : Decidable (IsPlain name) := inferInstanceAs (Decidable (_ ∧ _))

theorem IsPlain.ne_empty {name : String} (hname : IsPlain name) : name ≠ "" := by
  rintro rfl
  exact absurd hname.1 (by decide)

theorem IsPlain.ne_here {name : String} (hname : IsPlain name) : name ≠ "." := by
  rintro rfl
  exact absurd hname.1 (by decide)

theorem bodyComponents_append (as bs : List String) :
    bodyComponents (as ++ bs) = bodyComponents as ++ bodyComponents bs := by
  simp [bodyComponents]

theorem bodyComponents_silent {s : String} (hsilent : isSilent s = true) :
    bodyComponents [s] = [] := by
  simp [bodyComponents, hsilent]

theorem bodyComponents_plain {names : List String} (hnames : ∀ n ∈ names, IsPlain n) :
    bodyComponents names = names.map .name := by
  induction names with
  | nil => rfl
  | cons n rest ih =>
    obtain ⟨hcounts, hup, -⟩ := hnames n (List.mem_cons_self ..)
    have hrest := ih fun m hm => hnames m (List.mem_cons_of_mem _ hm)
    rw [← List.singleton_append, bodyComponents_append, hrest]
    simp [bodyComponents, hcounts, component, hup]

theorem IsPlain.not_absolute {name : String} (hname : IsPlain name) :
    (⟨name⟩ : Path).isAbsolute = false := by
  rw [isAbsolute, decide_eq_false_iff_not]
  intro hhead
  exact hname.2.2 (List.mem_of_head? hhead)

theorem segments_ne_nil (p : Path) : p.segments ≠ [] := by
  rw [segments, Ne, List.map_eq_nil_iff]
  exact Text.segments_ne_nil '/' _

/-- More segments at the end of a path add the components they stand for. -/
theorem components_of_segments {p q : Path} {first : String} {rest more : List String}
    {cs : List Component} (hp : p.segments = first :: rest) (hq : q.segments = first :: more)
    (habsolute : q.isAbsolute = p.isAbsolute)
    (hmore : bodyComponents more = bodyComponents rest ++ cs) :
    q.components = p.components ++ cs := by
  rw [components, components, hp, hq]
  simp only [habsolute]
  split
  · rw [hmore, List.cons_append]
  · split
    · rw [hmore, List.cons_append]
    · have hcut (tail : List String) :
          bodyComponents (first :: tail) = bodyComponents [first] ++ bodyComponents tail :=
        bodyComponents_append [first] tail
      rw [hcut more, hcut rest, hmore, List.append_assoc]

/-- A slash cuts the segments of a path in two. -/
theorem segments_of_cut {p q : Path} {s : List Char}
    (hp : p.text.toList = s ++ '/' :: q.text.toList) :
    p.segments = (⟨String.ofList s⟩ : Path).segments ++ q.segments := by
  simp [segments, hp, Text.segments_append]

theorem segments_plain {name : String} (hname : IsPlain name) :
    (⟨name⟩ : Path).segments = [name] := by
  rw [segments, Text.segments_of_not_mem hname.2.2]
  simp

/-- A relative path behind a base adds the components of all its segments. -/
theorem components_join (base : Path) {p : Path} (hbase : base.text ≠ "")
    (hrelative : p.isAbsolute = false) :
    (base.join p).components = base.components ++ bodyComponents p.segments := by
  by_cases hslash : base.text.toList.getLast? = some '/'
  · -- the last slash of the base is the one before the path
    obtain ⟨s, hs⟩ := List.getLast?_eq_some_iff.mp hslash
    have hjoin : (base.join p).text.toList = s ++ '/' :: p.text.toList := by
      simp [join, hrelative, hs]
    have hcut : base.text.toList = s ++ '/' :: (⟨""⟩ : Path).text.toList := by simp [hs]
    obtain ⟨first, rest, hfirst⟩ :=
      List.exists_cons_of_ne_nil (segments_ne_nil ⟨String.ofList s⟩)
    have hbody : bodyComponents (⟨""⟩ : Path).segments = [] := by decide
    have hpath := segments_of_cut hcut
    have hsegments := segments_of_cut hjoin
    rw [hfirst, List.cons_append] at hpath hsegments
    refine components_of_segments hpath hsegments ?_ ?_
    · rw [isAbsolute, isAbsolute, hjoin, hs]
      cases s <;> rfl
    · rw [bodyComponents_append, bodyComponents_append, hbody, List.append_nil]
  · -- a slash is put between the base and the path
    have hjoin : (base.join p).text.toList = base.text.toList ++ '/' :: p.text.toList := by
      simp [join, hrelative, hbase, hslash]
    obtain ⟨first, rest, hfirst⟩ := List.exists_cons_of_ne_nil (segments_ne_nil base)
    have hsegments := segments_of_cut hjoin
    rw [String.ofList_toList, hfirst, List.cons_append] at hsegments
    refine components_of_segments hfirst hsegments ?_ (bodyComponents_append ..)
    have hne : base.text.toList ≠ [] := by simpa using hbase
    obtain ⟨c, cs, hc⟩ := List.exists_cons_of_ne_nil hne
    rw [isAbsolute, isAbsolute, hjoin, hc]
    rfl

theorem components_child (p : Path) {name : String} (hname : IsPlain name) :
    (p.child name).components = p.components ++ [.name name] := by
  have hbody : bodyComponents [name] = [.name name] :=
    bodyComponents_plain (by simpa using hname)
  have hrelative := hname.not_absolute
  by_cases hempty : p.text = ""
  · -- nothing stands before the name
    have hchild : p.child name = ⟨name⟩ := by simp [child, join, hrelative, hempty]
    have hp : p.components = [] := by
      obtain ⟨text⟩ := p
      subst hempty
      decide
    rw [hchild, hp, components, segments_plain hname]
    simp [hrelative, hname.ne_here, hbody]
  · rw [child, components_join p hempty hrelative, segments_plain hname, hbody]

/-! ### Folded paths -/

/-- What can stand before the names of a folded path. -/
inductive FoldBase : List Component → Prop
  | nothing : FoldBase []
  | up : FoldBase [.up]
  | root : FoldBase [.root]
  | rootUp : FoldBase [.root, .up]

/-- A base and plain names behind it. -/
def FoldedList (cs : List Component) : Prop :=
  ∃ (base : List Component) (names : List String),
    FoldBase base ∧ (∀ n ∈ names, IsPlain n) ∧ cs = base ++ names.map .name

theorem FoldedList.append {cs : List Component} (hcs : FoldedList cs) {more : List String}
    (hmore : ∀ n ∈ more, IsPlain n) : FoldedList (cs ++ more.map .name) := by
  obtain ⟨base, names, hbase, hnames, rfl⟩ := hcs
  refine ⟨base, names ++ more, hbase, ?_, by simp⟩
  intro n hn
  rcases List.mem_append.mp hn with hn | hn
  · exact hnames n hn
  · exact hmore n hn

/-- One step of folding, the last component first, keeps a folded list folded. -/
theorem FoldedList.step {cs : List Component} (hcs : FoldedList cs) {c : Component}
    (hc : ∀ n, c = .name n → IsPlain n) : FoldedList (foldStep cs.reverse c).reverse := by
  cases c with
  | here => simpa [foldStep] using hcs
  | root => exact ⟨[.root], [], .root, by simp, rfl⟩
  | name n =>
    have hn : FoldedList (cs ++ [n].map .name) := hcs.append (by simpa using hc n rfl)
    simpa [foldStep] using hn
  | up =>
    obtain ⟨base, names, hbase, hnames, rfl⟩ := hcs
    rcases List.eq_nil_or_concat names with rfl | ⟨front, last, rfl⟩
    · -- only the base is left
      cases hbase with
      | nothing => exact ⟨[.up], [], .up, by simp, rfl⟩
      | up => exact ⟨[], [], .nothing, by simp, rfl⟩
      | root => exact ⟨[.root, .up], [], .rootUp, by simp, rfl⟩
      | rootUp => exact ⟨[.root], [], .root, by simp, rfl⟩
    · refine ⟨base, front, hbase, fun n hn => hnames n (by simp [hn]), ?_⟩
      simp [foldStep]

theorem FoldedList.foldl {cs more : List Component} (hcs : FoldedList cs)
    (hmore : ∀ n, .name n ∈ more → IsPlain n) :
    FoldedList (more.foldl foldStep cs.reverse).reverse := by
  induction more generalizing cs with
  | nil => simpa using hcs
  | cons c rest ih =>
    have hstep := hcs.step (c := c) fun n hn => hmore n (by simp [hn])
    have hrest := ih hstep fun n hn => hmore n (List.mem_cons_of_mem _ hn)
    simpa using hrest

theorem plain_of_mem_bodyComponents {segments : List String} {n : String}
    (hslash : ∀ s ∈ segments, '/' ∉ s.toList) (hn : .name n ∈ bodyComponents segments) :
    IsPlain n := by
  obtain ⟨s, hs, hname⟩ := List.mem_map.mp hn
  obtain ⟨hmem, hsilent⟩ := List.mem_filter.mp hs
  rw [component] at hname
  split at hname
  · cases hname
  · next hup =>
    obtain rfl : s = n := Component.name.inj hname
    exact ⟨by simpa using hsilent, hup, hslash s hmem⟩

theorem not_mem_segment {p : Path} {s : String} (hs : s ∈ p.segments) : '/' ∉ s.toList := by
  obtain ⟨segment, hsegment, rfl⟩ := List.mem_map.mp hs
  rw [String.toList_ofList]
  exact Text.not_mem_of_mem_segments hsegment

theorem plain_of_mem_components {p : Path} {n : String} (hn : .name n ∈ p.components) :
    IsPlain n := by
  have hslash : ∀ s ∈ p.segments, '/' ∉ s.toList := fun s hs => not_mem_segment hs
  rw [components] at hn
  split at hn
  · simp at hn
  · next first rest hp =>
    rw [hp] at hslash
    have hrest : ∀ s ∈ rest, '/' ∉ s.toList := fun s hs => hslash s (List.mem_cons_of_mem _ hs)
    split at hn
    · exact plain_of_mem_bodyComponents hrest (by simpa using hn)
    · split at hn
      · exact plain_of_mem_bodyComponents hrest (by simpa using hn)
      · exact plain_of_mem_bodyComponents hslash hn

theorem foldedList_foldComponents (p : Path) : FoldedList (foldComponents p.components) := by
  have hnil : FoldedList [] := ⟨[], [], .nothing, by simp, rfl⟩
  exact hnil.foldl fun n hn => plain_of_mem_components hn

/-- Folding a folded list leaves it as it is. -/
theorem FoldedList.foldComponents_eq {cs : List Component} (hcs : FoldedList cs) :
    foldComponents cs = cs := by
  obtain ⟨base, names, hbase, -, rfl⟩ := hcs
  have hnames (stack : List Component) :
      (names.map Component.name).foldl foldStep stack =
        (names.map Component.name).reverse ++ stack := by
    induction names generalizing stack with
    | nil => rfl
    | cons n rest ih => simp [foldStep, ih]
  have hbase : base.foldl foldStep [] = base.reverse := by cases hbase <;> rfl
  rw [foldComponents, List.foldl_append, hbase, hnames]
  simp

/-! ### Writing folded paths -/

theorem segments_ofSegments {texts : List String} (hne : texts ≠ [])
    (hslash : ∀ t ∈ texts, '/' ∉ t.toList) : (ofSegments texts).segments = texts := by
  induction texts with
  | nil => exact absurd rfl hne
  | cons t rest ih =>
    have ht : '/' ∉ t.toList := hslash t (List.mem_cons_self ..)
    by_cases hrest : rest = []
    · subst hrest
      simp [ofSegments, Text.joined, segments, Text.segments_of_not_mem ht]
    · have hrec := ih hrest fun u hu => hslash u (List.mem_cons_of_mem _ hu)
      have htext : (ofSegments (t :: rest)).text.toList =
          t.toList ++ '/' :: (ofSegments rest).text.toList := by
        simp [ofSegments, Text.joined, String.intercalate_cons_of_ne_nil hrest]
      rw [segments, htext, Text.segments_append, Text.segments_of_not_mem ht]
      rw [segments] at hrec
      simp [hrec]

theorem not_absolute_of_segments {p : Path} {first : String} {rest : List String}
    (hp : p.segments = first :: rest) (hfirst : first ≠ "") : p.isAbsolute = false := by
  rw [isAbsolute, decide_eq_false_iff_not]
  intro hhead
  obtain ⟨t, ht⟩ := List.head?_eq_some_iff.mp hhead
  have hcut := Text.segments_append '/' [] t
  rw [segments, ht, ← List.nil_append ('/' :: t), hcut] at hp
  simp only [Text.segments, List.singleton_append, List.map_cons] at hp
  exact hfirst (List.cons.inj hp).1.symm

theorem isAbsolute_of_segments {p : Path} {rest : List String} (hp : p.segments = "" :: rest)
    (hne : rest ≠ []) : p.isAbsolute = true := by
  rw [isAbsolute, decide_eq_true_eq]
  cases htext : p.text.toList with
  | nil =>
    rw [segments, htext] at hp
    exact absurd (List.cons.inj hp).2.symm hne
  | cons c s =>
    obtain ⟨segment, more, hcut⟩ := List.exists_cons_of_ne_nil (Text.segments_ne_nil '/' s)
    rw [segments, htext, Text.segments, hcut] at hp
    by_cases hslash : c = '/'
    · rw [hslash, List.head?_cons]
    · simp [hslash] at hp

theorem components_relative {first : String} {rest : List String}
    (hslash : ∀ t ∈ first :: rest, '/' ∉ t.toList) (hempty : first ≠ "") (hhere : first ≠ ".") :
    (ofSegments (first :: rest)).components = bodyComponents (first :: rest) := by
  have hsegments := segments_ofSegments (List.cons_ne_nil first rest) hslash
  rw [components, hsegments]
  simp [not_absolute_of_segments hsegments hempty, hhere]

theorem components_rooted {rest : List String} (hslash : ∀ t ∈ rest, '/' ∉ t.toList)
    (hne : rest ≠ []) : (ofSegments ("" :: rest)).components = .root :: bodyComponents rest := by
  have hall : ∀ t ∈ "" :: rest, '/' ∉ t.toList := by simpa using hslash
  have hsegments := segments_ofSegments (List.cons_ne_nil "" rest) hall
  have habsolute : (ofSegments ("" :: rest)).isAbsolute = true := by
    simp [isAbsolute, ofSegments, Text.joined, String.intercalate_cons_of_ne_nil hne]
  rw [components, hsegments]
  simp [habsolute]

theorem ofComponents_eq {cs : List Component} (hcs : cs ≠ [.root]) :
    ofComponents cs = ofSegments (cs.map Component.text) := by
  unfold ofComponents
  split
  · exact absurd rfl hcs
  · rfl

theorem text_names (names : List String) :
    (names.map Component.name).map Component.text = names := by
  induction names with
  | nil => rfl
  | cons n rest ih => rw [List.map_cons, List.map_cons, ih, Component.text]

theorem components_ofComponents {cs : List Component} (hcs : FoldedList cs) :
    (ofComponents cs).components = cs := by
  obtain ⟨base, names, hbase, hnames, rfl⟩ := hcs
  have hslash : ∀ n ∈ names, '/' ∉ n.toList := fun n hn => (hnames n hn).2.2
  have hupSlash : ∀ t ∈ ".." :: names, '/' ∉ t.toList := by
    intro t ht
    rcases List.mem_cons.mp ht with rfl | ht
    · decide
    · exact hslash t ht
  have hbody := bodyComponents_plain hnames
  have hup : bodyComponents (".." :: names) = .up :: names.map .name := by
    have hdots : bodyComponents [".."] = [.up] := by decide
    rw [← List.singleton_append, bodyComponents_append, hbody, hdots, List.singleton_append]
  cases hbase with
  | nothing =>
    cases names with
    | nil => decide
    | cons n rest =>
      obtain ⟨hcounts, -, -⟩ := hnames n (List.mem_cons_self ..)
      rw [ofComponents_eq (by simp), List.nil_append, text_names, components_relative hslash, hbody]
      · rintro rfl
        simp [isSilent] at hcounts
      · rintro rfl
        simp [isSilent] at hcounts
  | up =>
    rw [ofComponents_eq (by simp), List.map_append, text_names]
    rw [show [Component.up].map Component.text = [".."] from rfl, List.singleton_append,
      components_relative hupSlash (by decide) (by decide), hup]
    rfl
  | root =>
    cases names with
    | nil => decide
    | cons n rest =>
      rw [ofComponents_eq (by simp), List.map_append, text_names]
      exact (components_rooted hslash (by simp)).trans (congrArg _ hbody)
  | rootUp =>
    rw [ofComponents_eq (by simp), List.map_append, text_names]
    exact (components_rooted hupSlash (by simp)).trans (congrArg _ hup)

/-- Below a folded path, folding keeps all components. -/
theorem components_folded_below {base p : Path} {names : List String}
    (hnames : ∀ n ∈ names, IsPlain n)
    (hp : p.components = base.folded.components ++ names.map .name) :
    p.folded.components = p.components := by
  have hbase : FoldedList base.folded.components := by
    rw [folded, components_ofComponents (foldedList_foldComponents base)]
    exact foldedList_foldComponents base
  have hlist := hbase.append hnames
  rw [← hp] at hlist
  rw [folded, hlist.foldComponents_eq, components_ofComponents hlist]

/-! ### The last name -/

/-- A plain last segment is the last component. -/
theorem components_getLast?_of_segments {p : Path} {name : String} (hname : IsPlain name)
    (hlast : p.segments.getLast? = some name) : p.components.getLast? = some (.name name) := by
  obtain ⟨front, hfront⟩ := List.getLast?_eq_some_iff.mp hlast
  have hbody (segments : List String) :
      (bodyComponents (segments ++ [name])).getLast? = some (.name name) := by
    have hone : bodyComponents [name] = [.name name] := bodyComponents_plain (by simpa using hname)
    rw [bodyComponents_append, hone]
    simp
  rw [components, hfront]
  cases front with
  | nil =>
    rw [List.nil_append] at hfront
    simpa [not_absolute_of_segments hfront hname.ne_empty, hname.ne_here] using hbody []
  | cons first rest =>
    have hrest := hbody rest
    simp only [List.cons_append]
    split
    · rw [List.getLast?_cons, hrest]
      rfl
    · split
      · rw [List.getLast?_cons, hrest]
        rfl
      · exact hbody (first :: rest)

theorem fileName?_eq_some_iff {p : Path} {name : String} :
    p.fileName? = some name ↔ p.components.getLast? = some (.name name) := by
  unfold fileName?
  split
  · next s hs => rw [hs, Option.some.injEq, Option.some.injEq, Component.name.injEq]
  · next hother =>
    constructor
    · intro h
      cases h
    · intro h
      exact absurd h (hother name)

theorem fileName?_child (p : Path) {name : String} (hname : IsPlain name) :
    (p.child name).fileName? = some name := by
  rw [fileName?_eq_some_iff, components_child p hname]
  simp

/-- Folding keeps a name at the end. -/
theorem fileName?_folded {p : Path} {name : String} (hname : p.fileName? = some name) :
    p.folded.fileName? = some name := by
  rw [fileName?_eq_some_iff] at hname ⊢
  obtain ⟨front, hfront⟩ := List.getLast?_eq_some_iff.mp hname
  rw [folded, components_ofComponents (foldedList_foldComponents p), hfront, foldComponents,
    List.foldl_append]
  simp [foldStep]

/-- A joined path ends like its second part. -/
theorem segments_join_getLast? (base p : Path) :
    (base.join p).segments.getLast? = p.segments.getLast? := by
  have hcut {q : Path} (s : List Char) (hq : q.text.toList = s ++ '/' :: p.text.toList) :
      q.segments.getLast? = p.segments.getLast? := by
    obtain ⟨front, last, hp⟩ := (List.eq_nil_or_concat p.segments).resolve_left (segments_ne_nil p)
    rw [segments_of_cut hq, hp, List.concat_eq_append, ← List.append_assoc]
    simp
  unfold join
  split
  · rfl
  · split
    · next hbase =>
      rw [Bool.or_eq_true, String.isEmpty_iff] at hbase
      rcases hbase with hempty | hslash
      · rw [hempty, String.empty_append]
      · obtain ⟨s, hs⟩ := List.getLast?_eq_some_iff.mp (of_decide_eq_true hslash)
        exact hcut s (by simp [hs])
    · exact hcut base.text.toList (by simp)

/-- A relative path that ends with a name has it as its last segment that counts. -/
theorem bodyComponents_getLast? {p : Path} {name : String} (hrelative : p.isAbsolute = false)
    (hname : p.fileName? = some name) :
    (bodyComponents p.segments).getLast? = some (.name name) := by
  rw [fileName?_eq_some_iff, components] at hname
  split at hname
  · simp at hname
  · next first rest hp =>
    rw [hp]
    rw [hrelative, if_neg (by simp)] at hname
    split at hname
    · next hhere =>
      subst hhere
      have hbody : bodyComponents ("." :: rest) = bodyComponents rest := by
        rw [← List.singleton_append, bodyComponents_append, bodyComponents_silent (by decide),
          List.nil_append]
      rw [hbody]
      cases hrest : bodyComponents rest with
      | nil => simp [hrest] at hname
      | cons c cs => rwa [hrest, List.getLast?_cons_cons] at hname
    · exact hname

/-- A joined path has the name of its second part. -/
theorem fileName?_join {p : Path} {name : String} (base : Path)
    (hname : p.fileName? = some name) : (base.join p).fileName? = some name := by
  cases hrelative : p.isAbsolute with
  | true => simpa [join, hrelative] using hname
  | false =>
    by_cases hbase : base.text = ""
    · simpa [join, hrelative, hbase] using hname
    · rw [fileName?_eq_some_iff, components_join base hbase hrelative, List.getLast?_append,
        bodyComponents_getLast? hrelative hname]
      rfl

end SourceAudit.Path
