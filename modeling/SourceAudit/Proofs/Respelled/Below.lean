/-
  SourceAudit/Proofs/Respelled/Below.lean
  =======================================
  **Paths below a directory, however it is written.**

  A walk writes the names of the entries it goes through behind the path of the directory it
  started from (`Path.below`).  What can be read off such a path is the directory or the
  names: its components are those of the directory and the names (`Path.components_below`), it
  is shown as the names (`Path.displayedFrom_below`), and it is folded to the names behind the
  folded directory (`Path.folded_below`).  So paths with the same names below two spellings
  of a directory differ in nothing but how the directory is written.
-/
import SourceAudit.Proofs.PlainPaths

namespace SourceAudit.Path

/-- Where names lead from a directory, written behind its path. -/
def below (base : Path) (names : List String) : Path := names.foldl child base

theorem below_append (base : Path) (names more : List String) :
    base.below (names ++ more) = (base.below names).below more :=
  List.foldl_append

theorem below_concat (base : Path) (names : List String) (name : String) :
    base.below (names ++ [name]) = (base.below names).child name :=
  below_append base names [name]

/-! ### How they are written -/

theorem text_ne_empty_of_absolute {p : Path} (hp : p.isAbsolute = true) : p.text ≠ "" := by
  obtain ⟨text⟩ := p
  rintro rfl
  exact absurd hp (by decide)

/-- The text of a directory with a slash at the end. -/
def opened (p : Path) : String :=
  if p.text.toList.getLast? = some '/' then p.text else p.text ++ "/"

theorem text_join {base p : Path} (hbase : base.text ≠ "") (hrelative : p.isAbsolute = false) :
    (base.join p).text = base.opened ++ p.text := by
  rw [join, opened, if_neg (by simp [hrelative])]
  by_cases hslash : base.text.toList.getLast? = some '/'
  · rw [if_pos (by simp [hslash]), if_pos hslash]
  · rw [if_neg (by simp [hbase, hslash]), if_neg hslash]

/-- A joined path is written as the base and the path, but for one empty segment between. -/
theorem segments_join {base p : Path} (hbase : base.text ≠ "") (hrelative : p.isAbsolute = false) :
    ∃ front last, base.segments = front ++ last ∧ (last = [] ∨ last = [""]) ∧
      (base.join p).segments = front ++ p.segments := by
  have htext := text_join hbase hrelative
  by_cases hslash : base.text.toList.getLast? = some '/'
  · obtain ⟨s, hs⟩ := List.getLast?_eq_some_iff.mp hslash
    have hcut : base.text.toList = s ++ '/' :: (⟨""⟩ : Path).text.toList := by simp [hs]
    have hjoin : (base.join p).text.toList = s ++ '/' :: p.text.toList := by
      simp [htext, opened, hs]
    exact ⟨_, [""], segments_of_cut hcut, .inr rfl, segments_of_cut hjoin⟩
  · have hjoin : (base.join p).text.toList = base.text.toList ++ '/' :: p.text.toList := by
      simp [htext, opened, hslash]
    have hsegments := segments_of_cut hjoin
    rw [String.ofList_toList] at hsegments
    exact ⟨base.segments, [], (List.append_nil _).symm, .inl rfl, hsegments⟩

theorem isAbsolute_join {base : Path} (hbase : base.isAbsolute = true) (p : Path) :
    (base.join p).isAbsolute = true := by
  cases hrelative : p.isAbsolute with
  | true => rwa [join, if_pos hrelative]
  | false =>
    have hfull := text_ne_empty_of_absolute hbase
    have hne : base.text.toList ≠ [] := by simpa using hfull
    rw [isAbsolute, text_join hfull hrelative, opened]
    split
    · rwa [String.toList_append, List.head?_append_of_ne_nil _ hne]
    · rwa [String.toList_append, String.toList_append, List.append_assoc,
        List.head?_append_of_ne_nil _ hne]

theorem isAbsolute_below {base : Path} (hbase : base.isAbsolute = true) (names : List String) :
    (base.below names).isAbsolute = true := by
  induction names generalizing base with
  | nil => exact hbase
  | cons n rest ih => exact ih (isAbsolute_join hbase ⟨n⟩)

/-- Joining leaves them as they are. -/
theorem join_below {base : Path} (hbase : base.isAbsolute = true) (other : Path)
    (names : List String) : other.join (base.below names) = base.below names := by
  rw [join, if_pos (isAbsolute_below hbase names)]

section

variable {base : Path} {names : List String} (hnames : ∀ n ∈ names, IsPlain n)

include hnames

theorem components_below :
    (base.below names).components = base.components ++ names.map .name := by
  induction names generalizing base with
  | nil => rw [List.map_nil, List.append_nil, below, List.foldl_nil]
  | cons n rest ih =>
    have hn : IsPlain n := hnames n (List.mem_cons_self ..)
    have hrest : ((base.child n).below rest).components = _ :=
      ih fun m hm => hnames m (List.mem_cons_of_mem _ hm)
    rw [below, List.foldl_cons, ← below, hrest, components_child base hn, List.map_cons,
      List.append_assoc, List.singleton_append]

theorem folded_below :
    (base.below names).folded = ofComponents (base.folded.components ++ names.map .name) := by
  have hinto := (Leads.into (foldComponents base.components) hnames).foldl
  rw [bodyComponents_plain hnames] at hinto
  have hstart : (foldComponents base.components).reverse = base.components.foldl foldStep [] :=
    List.reverse_reverse _
  rw [folded, components_below hnames, components_folded, foldComponents, List.foldl_append,
    ← hstart, hinto, List.reverse_reverse]

variable (hne : names ≠ [])

include hne

theorem fileName?_below : (base.below names).fileName? = names.getLast? := by
  obtain ⟨front, last, rfl⟩ := (List.eq_nil_or_concat names).resolve_left hne
  rw [List.concat_eq_append] at hnames ⊢
  rw [below_concat, fileName?_child _ (hnames last (by simp)), List.getLast?_concat]

theorem text_below (hbase : base.text ≠ "") :
    (base.below names).text = base.opened ++ Text.joined "/" names := by
  induction names generalizing base with
  | nil => exact absurd rfl hne
  | cons n rest ih =>
    have hn : IsPlain n := hnames n (List.mem_cons_self ..)
    have hchild : (base.child n).text = base.opened ++ n := text_join hbase hn.not_absolute
    cases rest with
    | nil => rw [below, List.foldl_cons, List.foldl_nil, hchild, Text.joined,
        String.intercalate_singleton]
    | cons m more =>
      have hfilled : n.toList ≠ [] := fun hnil => hn.ne_empty (String.toList_eq_nil_iff.mp hnil)
      have hopen : (base.opened ++ n).toList.getLast? ≠ some '/' := by
        rw [String.toList_append, List.getLast?_append_of_ne_nil _ hfilled]
        exact fun hlast => hn.2.2 (List.mem_of_getLast? hlast)
      have hfull : (base.child n).text ≠ "" := by
        rw [hchild, Ne, ← String.toList_inj, String.toList_append]
        simp [hfilled]
      have hopened : (base.child n).opened = base.opened ++ n ++ "/" := by
        rw [opened, hchild, if_neg hopen]
      have hrest : ((base.child n).below (m :: more)).text = _ :=
        ih (fun k hk => hnames k (List.mem_cons_of_mem _ hk)) (List.cons_ne_nil m more) hfull
      rw [below, List.foldl_cons, ← below, hrest, hopened, Text.joined, Text.joined,
        String.intercalate_cons_of_ne_nil (List.cons_ne_nil m more), ← String.append_assoc,
        ← String.append_assoc]

theorem below_eq_join (hbase : base.text ≠ "") :
    base.below names = base.join (ofSegments names) := by
  have hrelative := (IsPlain.counted hnames).not_absolute
  exact congrArg Path.mk ((text_below hnames hne hbase).trans (text_join hbase hrelative).symm)

end

/-! ### How they are shown -/

/-- Behind all segments that count, and the silent ones after them, the names are left. -/
theorem dropWhile_dropCounted (front : List String) {names : List String}
    (hnames : ∀ n ∈ names, IsPlain n) :
    (dropCounted (bodyComponents front).length (front ++ names)).dropWhile isSilent = names := by
  induction front with
  | nil =>
    rw [bodyComponents, List.filter_nil, List.map_nil, List.length_nil, dropCounted,
      List.nil_append]
    exact (IsPlain.counted hnames).dropWhile_eq
  | cons s rest ih =>
    cases hsilent : isSilent s with
    | true =>
      have hskip : bodyComponents (s :: rest) = bodyComponents rest := by
        simp [bodyComponents, hsilent]
      rw [hskip]
      cases hlength : (bodyComponents rest).length with
      | zero =>
        rw [hlength, dropCounted] at ih
        rw [dropCounted, List.cons_append, List.dropWhile_cons_of_pos hsilent]
        exact ih
      | succ k =>
        rw [hlength] at ih
        rw [List.cons_append, dropCounted, if_pos hsilent]
        exact ih
    | false =>
      have hcount : bodyComponents (s :: rest) = component s :: bodyComponents rest := by
        simp [bodyComponents, hsilent]
      rw [hcount, List.length_cons, List.cons_append, dropCounted, if_neg (by simp [hsilent])]
      exact ih

/-- Only the empty path is written as one empty segment. -/
theorem segments_ne_empty {p : Path} (hfull : p.text ≠ "") : p.segments ≠ [""] := by
  have hne : p.text.toList ≠ [] := by simpa using hfull
  obtain ⟨c, s, hc⟩ := List.exists_cons_of_ne_nil hne
  obtain ⟨first, more, hs⟩ := List.exists_cons_of_ne_nil (Text.segments_ne_nil '/' s)
  rw [segments, hc, Text.segments, hs]
  by_cases hslash : c = '/' <;> simp [hslash]

/-- Behind a directory, the names that lead from it are left. -/
theorem relativeTo?_below {base : Path} (hbase : base.text ≠ "") {names : List String}
    (hnames : ∀ n ∈ names, IsPlain n) (hne : names ≠ []) :
    (base.below names).relativeTo? base = some (ofSegments names) := by
  obtain ⟨front, last, hfront, hlast, hbelow⟩ :=
    segments_join hbase (IsPlain.counted hnames).not_absolute
  rw [← below_eq_join hnames hne hbase,
    segments_ofSegments hne fun n hn => (hnames n hn).2.2] at hbelow
  have hstarts : base.components.isPrefixOf (base.below names).components = true := by
    rw [components_below hnames, List.isPrefixOf_iff_prefix]
    exact List.prefix_append _ _
  cases front with
  | nil =>
    -- only the empty path has nothing in front of its last segment, where that is silent
    rcases hlast with rfl | rfl
    · exact absurd hfront (segments_ne_nil base)
    · exact absurd hfront (segments_ne_empty hbase)
  | cons head front =>
    have hbody : bodyComponents (front ++ last) = bodyComponents front := by
      rw [bodyComponents_append]
      rcases hlast with rfl | rfl
      · simp [bodyComponents]
      · simp [bodyComponents, isSilent]
    have hleft : ofSegments (dropSilentEnd ((dropCounted (bodyComponents front).length
        (front ++ names)).dropWhile isSilent)) = ofSegments names := by
      rw [dropWhile_dropCounted front hnames, (IsPlain.counted hnames).dropSilentEnd_eq]
    rw [List.cons_append] at hfront
    rw [relativeTo?, hstarts, if_pos rfl, hbelow, components, hfront, List.cons_append]
    cases habsolute : base.isAbsolute with
    | true =>
      simp only [if_true, hbody]
      rw [hleft]
    | false =>
      by_cases hhere : head = "."
      · simp only [hhere, if_true, Bool.false_eq_true, if_false, hbody]
        rw [hleft]
      · have hhead : head ≠ "" := by
          rintro rfl
          have hrest : front ++ last ≠ [] := fun h => segments_ne_empty hbase (h ▸ hfront)
          rw [isAbsolute_of_segments hfront hrest] at habsolute
          cases habsolute
        have hcounts : isSilent head = false := by simp [isSilent, hhead, hhere]
        have hfirst : bodyComponents (head :: (front ++ last)) =
            component head :: bodyComponents front := by
          rw [← hbody]
          simp [bodyComponents, hcounts]
        have hcomponent : component head = .up ∨ component head = .name head := by
          rw [component]
          split
          · exact .inl rfl
          · exact .inr rfl
        simp only [hhere, Bool.false_eq_true, if_false, hfirst]
        rcases hcomponent with h | h <;>
          simp only [h, List.length_cons, dropCounted, hcounts, Bool.false_eq_true, if_false, hleft]

theorem displayedFrom_below {base : Path} (hbase : base.text ≠ "") {names : List String}
    (hnames : ∀ n ∈ names, IsPlain n) (hne : names ≠ []) :
    (base.below names).displayedFrom base = (ofSegments names).slashText := by
  rw [displayedFrom, relativeTo?_below hbase hnames hne, Option.getD_some]

/-! ### Files below two directories -/

/-- Behind the same components the others decide. -/
theorem componentsLe_append (front as bs : List Component) :
    componentsLe (front ++ as) (front ++ bs) = componentsLe as bs := by
  induction front with
  | nil => rfl
  | cons c front ih =>
    rw [List.cons_append, List.cons_append, componentsLe, Component.before_irrefl,
      decide_eq_true rfl, Bool.false_or, Bool.true_and, ih]

/-- The files have the same names below `p` and below `q`. -/
def SameBelow (p q : Path) (files files' : List Path) : Prop :=
  ∃ found : List (List String), files = found.map p.below ∧ files' = found.map q.below ∧
    ∀ f ∈ found, f ≠ [] ∧ ∀ n ∈ f, IsPlain n

namespace SameBelow

variable {p q : Path} {files files' : List Path} (h : SameBelow p q files files')

include h

/-- What is the same about two files with the same names is the same about all of them. -/
theorem map_eq {α : Type} {f g : Path → α}
    (hfg : ∀ names, names ≠ [] → (∀ n ∈ names, IsPlain n) → f (p.below names) = g (q.below names)) :
    files.map f = files'.map g := by
  obtain ⟨found, rfl, rfl, hfound⟩ := h
  rw [List.map_map, List.map_map]
  refine List.map_congr_left fun names hnames => ?_
  obtain ⟨hne, hplain⟩ := hfound names hnames
  exact hfg names hne hplain

theorem filter {keep keep' : Path → Bool}
    (hkeep : ∀ names, names ≠ [] → (∀ n ∈ names, IsPlain n) →
      keep (p.below names) = keep' (q.below names)) :
    SameBelow p q (files.filter keep) (files'.filter keep') := by
  obtain ⟨found, rfl, rfl, hfound⟩ := h
  refine ⟨found.filter (keep ∘ p.below), ?_, ?_, ?_⟩
  · rw [List.filter_map]
  · have hsame : found.filter (keep ∘ p.below) = found.filter (keep' ∘ q.below) := by
      refine List.filter_congr fun names hnames => ?_
      obtain ⟨hne, hplain⟩ := hfound names hnames
      exact hkeep names hne hplain
    rw [List.filter_map, hsame]
  · intro names hnames
    exact hfound names (List.mem_filter.mp hnames).1

end SameBelow

end SourceAudit.Path
