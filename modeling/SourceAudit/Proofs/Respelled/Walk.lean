/-
  SourceAudit/Proofs/Respelled/Walk.lean
  ======================================
  **Walks of respelled directories.**

  Ignore lines are tried on the bytes of a path behind the directory that holds them, and
  these are the names below that directory, however the root of the walk is written
  (`IgnoreLayer.seenFrom_below`, `IgnoreStack.absolutePath_below`).  Only the lines of the
  user are tried on the path as it is written.  Without such lines a walk of a respelled
  directory goes into the same entries in the same order: it lists the same names below the
  other spelling (`Discovery.walk_respelled`).
-/
import SourceAudit.Proofs.ByteOrder
import SourceAudit.Proofs.Respelled.Resolving

namespace SourceAudit

/-! ### The byte of a slash -/

/-- No other character starts with the byte of a slash. -/
theorem head?_utf8EncodeChar (c : Char) :
    (String.utf8EncodeChar c).head? = some IgnorePattern.slash → c = '/' := by
  intro hhead
  have hvalue {n : ℕ} (hn : UInt8.ofNat n = IgnorePattern.slash) : n % 256 = 47 := by
    have htoNat := congrArg UInt8.toNat hn
    rwa [UInt8.toNat_ofNat'] at htoNat
  have hc : c.val.toNat = 47 := by
    unfold String.utf8EncodeChar at hhead
    dsimp only at hhead
    split at hhead
    · have := hvalue (Option.some.inj hhead)
      omega
    · split at hhead
      · have := hvalue (Option.some.inj hhead)
        omega
      · split at hhead
        · have := hvalue (Option.some.inj hhead)
          omega
        · have := hvalue (Option.some.inj hhead)
          omega
  exact Char.ext (UInt32.toNat_inj.mp hc)

/-! ### Paths as ignore lines see them -/

theorem Path.utf8_absolute {p : Path} (hp : p.isAbsolute = true) :
    ∃ bytes, utf8 p.text = IgnorePattern.slash :: bytes := by
  rw [isAbsolute, decide_eq_true_eq, List.head?_eq_some_iff] at hp
  obtain ⟨s, hs⟩ := hp
  exact ⟨s.flatMap String.utf8EncodeChar, by rw [utf8_eq, hs]; rfl⟩

/-- The bytes of names start with no slash. -/
theorem head?_utf8_names {names : List String} (hnames : ∀ n ∈ names, Path.IsPlain n) :
    (utf8 (Text.joined "/" names)).head? ≠ some IgnorePattern.slash := by
  cases names with
  | nil => simp [Text.joined, utf8_eq]
  | cons n rest =>
    obtain ⟨hcounts, -, hslash⟩ := hnames n (List.mem_cons_self ..)
    obtain ⟨tail, htail⟩ : ∃ tail, Text.joined "/" (n :: rest) = n ++ tail := by
      cases rest with
      | nil => exact ⟨"", by rw [Text.joined, String.intercalate_singleton, String.append_empty]⟩
      | cons m more =>
        refine ⟨"/" ++ Text.joined "/" (m :: more), ?_⟩
        rw [Text.joined, Text.joined,
          String.intercalate_cons_of_ne_nil (List.cons_ne_nil m more), String.append_assoc]
    cases htext : n.toList with
    | nil =>
      obtain rfl : n = "" := by simpa using htext
      exact absurd hcounts (by decide)
    | cons c s =>
      rw [htail, utf8_append, utf8_eq, htext, List.flatMap_cons, List.append_assoc,
        List.head?_append_of_ne_nil _ (utf8EncodeChar_ne_nil c)]
      intro hhead
      obtain rfl := head?_utf8EncodeChar c hhead
      exact hslash (htext ▸ List.mem_cons_self ..)

namespace IgnoreLayer

theorem withoutDot_rooted (bytes : List UInt8) :
    withoutDot (IgnorePattern.slash :: bytes) = IgnorePattern.slash :: bytes := by
  cases bytes with
  | nil => rfl
  | cons b rest =>
    rw [withoutDot, if_neg]
    simp [IgnorePattern.slash, dot]

theorem afterBytes?_append (start rest : List UInt8) :
    afterBytes? start (start ++ rest) = some rest := by
  induction start with
  | nil => rfl
  | cons b start ih => rw [List.cons_append, afterBytes?, if_pos rfl, ih]

theorem withoutSlash_of_head {bytes : List UInt8}
    (hhead : bytes.head? ≠ some IgnorePattern.slash) : withoutSlash bytes = bytes := by
  cases bytes with
  | nil => rfl
  | cons b rest =>
    rw [withoutSlash, if_neg]
    rintro rfl
    exact hhead rfl

section

variable {base : Path} (hbase : base.isAbsolute = true) {names : List String}
  (hnames : ∀ n ∈ names, Path.IsPlain n) (hne : names ≠ [])

include hbase hnames hne

/-- Behind the bytes of a directory those of the names are left. -/
theorem afterBytes?_below :
    (afterBytes? (utf8 base.text) (utf8 (base.below names).text)).map withoutSlash =
      some (utf8 (Text.joined "/" names)) := by
  have hopened : ∃ between, utf8 base.opened = utf8 base.text ++ between ∧
      withoutSlash (between ++ utf8 (Text.joined "/" names)) = utf8 (Text.joined "/" names) := by
    rw [Path.opened]
    split
    · exact ⟨[], (List.append_nil _).symm, withoutSlash_of_head (head?_utf8_names hnames)⟩
    · refine ⟨[IgnorePattern.slash], ?_, ?_⟩
      · rw [utf8_append, utf8_eq "/"]
        rfl
      · rw [List.singleton_append, withoutSlash, if_pos rfl]
  obtain ⟨between, hbetween, hleft⟩ := hopened
  rw [Path.text_below hnames hne (Path.text_ne_empty_of_absolute hbase), utf8_append, hbetween,
    List.append_assoc, afterBytes?_append, Option.map_some, hleft]

/-- The lines of a directory are tried on the names below it. -/
theorem seenFrom_below :
    seenFrom (withoutDot (utf8 base.text)) (utf8 (base.below names).text) =
      utf8 (Text.joined "/" names) := by
  have hafter := afterBytes?_below hbase hnames hne
  obtain ⟨bytes, hbytes⟩ := Path.utf8_absolute hbase
  obtain ⟨whole, hwhole⟩ := Path.utf8_absolute (Path.isAbsolute_below hbase names)
  rw [hbytes, hwhole] at hafter ⊢
  rw [withoutDot_rooted, seenFrom, withoutDot_rooted, if_neg (by
    simp [IgnorePattern.slash, dot])]
  obtain ⟨rest, hrest, hleft⟩ := Option.map_eq_some_iff.mp hafter
  rw [hrest, Option.elim_some, hleft]

end

end IgnoreLayer

/-- The lines around the root are tried on the names behind the canonical root. -/
theorem IgnoreStack.absolutePath_below {s : IgnoreStack} (hroot : s.root.isAbsolute = true)
    {names : List String} (hnames : ∀ n ∈ names, Path.IsPlain n) (hne : names ≠ []) :
    s.absolutePath (s.root.below names) =
      if s.canonicalRoot.text = "/" then IgnorePattern.slash :: utf8 (Text.joined "/" names)
      else utf8 s.canonicalRoot.text ++ IgnorePattern.slash :: utf8 (Text.joined "/" names) := by
  have hafter := IgnoreLayer.afterBytes?_below hroot hnames hne
  obtain ⟨bytes, hbytes⟩ := Path.utf8_absolute hroot
  obtain ⟨whole, hwhole⟩ := Path.utf8_absolute (Path.isAbsolute_below hroot names)
  have hdot : s.root.text ≠ "." := by
    intro hdot
    rw [Path.isAbsolute, hdot] at hroot
    exact absurd hroot (by decide)
  rw [hbytes, hwhole] at hafter
  obtain ⟨rest, hrest, hleft⟩ := Option.map_eq_some_iff.mp hafter
  rw [absolutePath, hbytes, hwhole, IgnoreLayer.withoutDot_rooted, IgnoreLayer.withoutDot_rooted,
    if_neg hdot, hrest, Option.elim_some, hleft]
  simp only [head?_utf8_names hnames, if_false]

/-! ### Two walks -/

/-- The lines of one directory, for walks of `p` and of `q` that are at `names` by now. -/
def IgnoreLayer.Alike (p q : Path) (names : List String) (layer layer' : IgnoreLayer) : Prop :=
  ∃ git directory, ∃ front more : List String, names = front ++ more ∧
    layer = ofDirectory git (p.below front) directory ∧
    layer' = ofDirectory git (q.below front) directory

/-- What counts for the entries at `names`, in a walk of `p` and in one of `q`. -/
structure IgnoreStack.Alike (p q : Path) (names : List String) (s t : IgnoreStack) : Prop where
  absolute : p.isAbsolute = true
  absolute' : q.isAbsolute = true
  inner : List.Forall₂ (IgnoreLayer.Alike p q names) s.inner t.inner
  outer : s.outer = t.outer
  unused : s.user.gitIgnore = []
  unused' : t.user.gitIgnore = []
  root : s.root = p
  root' : t.root = q
  canonicalRoot : s.canonicalRoot = t.canonicalRoot

namespace IgnoreStack.Alike

variable {p q : Path} {names : List String} {s t : IgnoreStack}

theorem into (h : Alike p q names s t) (name : String) : Alike p q (names ++ [name]) s t where
  absolute := h.absolute
  absolute' := h.absolute'
  inner := by
    refine h.inner.imp ?_
    rintro layer layer' ⟨git, directory, front, more, rfl, hlayer, hlayer'⟩
    exact ⟨git, directory, front, more ++ [name], List.append_assoc .., hlayer, hlayer'⟩
  outer := h.outer
  unused := h.unused
  unused' := h.unused'
  root := h.root
  root' := h.root'
  canonicalRoot := h.canonicalRoot

theorem push (h : Alike p q names s t) (git : Bool) (directory : FileTree) :
    Alike p q names (s.push (IgnoreLayer.ofDirectory git (p.below names) directory))
      (t.push (IgnoreLayer.ofDirectory git (q.below names) directory)) where
  absolute := h.absolute
  absolute' := h.absolute'
  inner := .cons ⟨git, directory, names, [], (List.append_nil _).symm, rfl, rfl⟩ h.inner
  outer := h.outer
  unused := h.unused
  unused' := h.unused'
  root := h.root
  root' := h.root'
  canonicalRoot := h.canonicalRoot

/-- The lines of one kind say the same about an entry in both walks. -/
theorem verdict?_eq (h : Alike p q names s t) {name : String}
    (hnames : ∀ n ∈ names ++ [name], Path.IsPlain n) {kind : IgnoreLayer → List IgnorePattern}
    (hkind : ∀ git a b directory,
      kind (.ofDirectory git a directory) = kind (.ofDirectory git b directory))
    (isDirectory : Bool) :
    s.verdict? kind (p.below (names ++ [name])) isDirectory =
      t.verdict? kind (q.below (names ++ [name])) isDirectory := by
  have hlayer {layer layer' : IgnoreLayer} (hlayers : layer.Alike p q names layer') :
      layer.verdict? (kind layer) (utf8 (p.below (names ++ [name])).text) isDirectory =
        layer'.verdict? (kind layer') (utf8 (q.below (names ++ [name])).text) isDirectory := by
    obtain ⟨git, directory, front, more, rfl, rfl, rfl⟩ := hlayers
    rw [List.append_assoc] at hnames ⊢
    have hrest : ∀ n ∈ more ++ [name], Path.IsPlain n := fun n hn =>
      hnames n (List.mem_append_right _ hn)
    have hseen {r : Path} (hr : r.isAbsolute = true) :=
      IgnoreLayer.seenFrom_below (Path.isAbsolute_below hr front) hrest (by simp)
    have hfirst := hseen h.absolute
    have hsecond := hseen h.absolute'
    rw [← Path.below_append] at hfirst hsecond
    rw [IgnoreLayer.verdict?, IgnoreLayer.verdict?, hkind git _ (q.below front) directory]
    exact congrArg _ (congrArg (IgnorePattern.decide? _ · isDirectory) (hfirst.trans hsecond.symm))
  have hinner : ∀ {layers layers' : List IgnoreLayer},
      List.Forall₂ (IgnoreLayer.Alike p q names) layers layers' →
      (layers.findSome? fun l =>
        l.verdict? (kind l) (utf8 (p.below (names ++ [name])).text) isDirectory) =
      layers'.findSome? fun l =>
        l.verdict? (kind l) (utf8 (q.below (names ++ [name])).text) isDirectory := by
    intro layers layers' hlayers
    induction hlayers with
    | nil => rfl
    | cons hfirst _ ih => rw [List.findSome?_cons, List.findSome?_cons, hlayer hfirst, ih]
  have houter : s.absolutePath (p.below (names ++ [name])) =
      t.absolutePath (q.below (names ++ [name])) := by
    obtain ⟨rfl, rfl⟩ : s.root = p ∧ t.root = q := ⟨h.root, h.root'⟩
    rw [absolutePath_below h.absolute hnames (by simp),
      absolutePath_below h.absolute' hnames (by simp),
      h.canonicalRoot]
  rw [verdict?, verdict?, hinner h.inner, houter, h.outer]

theorem ignores_eq (h : Alike p q names s t) {name : String}
    (hnames : ∀ n ∈ names ++ [name], Path.IsPlain n) (isDirectory : Bool) :
    s.ignores (p.below (names ++ [name])) isDirectory =
      t.ignores (q.below (names ++ [name])) isDirectory := by
  have huser {layer : IgnoreLayer} (hunused : layer.gitIgnore = []) (path : List UInt8) :
      layer.verdict? layer.gitIgnore path isDirectory = none := by
    rw [IgnoreLayer.verdict?, hunused]
    rfl
  rw [ignores, ignores, h.verdict?_eq hnames (fun _ _ _ _ => rfl),
    h.verdict?_eq hnames (fun _ _ _ _ => rfl),
    h.verdict?_eq hnames (fun _ _ _ _ => rfl), huser h.unused, huser h.unused']

end IgnoreStack.Alike

namespace Discovery

section

variable {git : Bool} {p q : Path}

mutual

theorem filesAt_respelled : (tree : FileTree) → tree.Proper → ∀ {names : List String}
    {s t : IgnoreStack}, IgnoreStack.Alike p q names s t → (∀ n ∈ names, Path.IsPlain n) →
      ∃ found : List (List String), filesAt git s (p.below names) tree = found.map p.below ∧
        filesAt git t (q.below names) tree = found.map q.below ∧
        ∀ f ∈ found, names <+: f ∧ ∀ n ∈ f, Path.IsPlain n
  | .file content, _, names, s, t, _, hnames => by
    refine ⟨[names], by rw [filesAt]; rfl, by rw [filesAt]; rfl, ?_⟩
    intro f hf
    rw [List.mem_singleton.mp hf]
    exact ⟨List.prefix_rfl, hnames⟩
  | .directory entries, hproper, names, s, t, h, hnames => by
    rw [FileTree.Proper] at hproper
    obtain ⟨found, hfirst, hsecond, hfound⟩ := filesIn_respelled entries hproper.2
      (h.push git (.directory entries)) hnames
    refine ⟨found, by rw [filesAt, hfirst], by rw [filesAt, hsecond], ?_⟩
    intro f hf
    obtain ⟨name, hname, hplain⟩ := hfound f hf
    exact ⟨(List.prefix_append names [name]).trans hname, hplain⟩

theorem filesIn_respelled : (entries : List (String × FileTree)) →
    FileTree.ProperEntries entries → ∀ {names : List String} {s t : IgnoreStack},
      IgnoreStack.Alike p q names s t → (∀ n ∈ names, Path.IsPlain n) →
      ∃ found : List (List String), filesIn git s (p.below names) entries = found.map p.below ∧
        filesIn git t (q.below names) entries = found.map q.below ∧
        ∀ f ∈ found, ∃ name, names ++ [name] <+: f ∧ ∀ n ∈ f, Path.IsPlain n
  | [], _, names, s, t, _, _ => ⟨[], by rw [filesIn]; rfl, by rw [filesIn]; rfl, by simp⟩
  | (name, tree) :: rest, hproper, names, s, t, h, hnames => by
    obtain ⟨hname, htree, hrest⟩ := hproper
    have hinto : ∀ n ∈ names ++ [name], Path.IsPlain n := by
      intro n hn
      rcases List.mem_append.mp hn with hn | hn
      · exact hnames n hn
      · rwa [List.mem_singleton.mp hn]
    obtain ⟨more, hfirst, hsecond, hmore⟩ := filesIn_respelled rest hrest h hnames
    cases hignored : s.ignores (p.below (names ++ [name])) tree.isDirectory with
    | true =>
      have hignored' := (h.ignores_eq hinto tree.isDirectory).symm.trans hignored
      rw [Path.below_concat] at hignored hignored'
      refine ⟨more, ?_, ?_, hmore⟩
      · rw [filesIn, hignored, hfirst]
        rfl
      · rw [filesIn, hignored', hsecond]
        rfl
    | false =>
      have hignored' := (h.ignores_eq hinto tree.isDirectory).symm.trans hignored
      obtain ⟨found, hfound, hfound', hall⟩ := filesAt_respelled tree htree (h.into name) hinto
      rw [Path.below_concat] at hignored hignored' hfound hfound'
      refine ⟨found ++ more, ?_, ?_, ?_⟩
      · rw [filesIn, hignored, hfirst, List.map_append, ← hfound]
        rfl
      · rw [filesIn, hignored', hsecond, List.map_append, ← hfound']
        rfl
      · intro f hf
        rcases List.mem_append.mp hf with hf | hf
        · exact ⟨name, hall f hf⟩
        · exact hmore f hf

end

end

/-! ### The whole walk -/

/-- The order of files is that of their names. -/
theorem map_below_mergeSort (base : Path) {found : List (List String)}
    (hfound : ∀ f ∈ found, ∀ n ∈ f, Path.IsPlain n) :
    (found.map base.below).mergeSort Path.le =
      (found.mergeSort fun a b =>
        Path.componentsLe (a.map .name) (b.map .name)).map base.below := by
  refine (List.map_mergeSort ?_).symm
  intro a ha b hb
  rw [Path.le, Path.components_below (hfound a ha), Path.components_below (hfound b hb),
    Path.componentsLe_append]

/-- Without lines of the user, walks of respelled directories list the same names below the
    two spellings. -/
theorem walk_respelled {w : Workspace} {p q : Path} (h : Respelled w p q)
    (hproper : w.tree.Proper) {git : Bool} (hunused : (w.userLayer git).gitIgnore = [])
    (hdirectory : w.isDirectory p = true) :
    Path.SameBelow p q (walk w git p) (walk w git q) := by
  rw [Workspace.isDirectory] at hdirectory
  split at hdirectory
  · next entries hfind =>
    have hinner := proper_of_find? hproper hfind
    rw [FileTree.Proper] at hinner
    obtain ⟨names, hp, hq⟩ := h.resolved
    have hcanonical : w.canonical p = .ok (Path.ofNames names) := by
      rw [Workspace.canonical, hp]
      rfl
    have hfind' := h.find?_eq.symm.trans hfind
    have hcanonical' := h.canonical_eq.symm.trans hcanonical
    have hstart : IgnoreStack.Alike p q [] (w.ignoreStack git p (Path.ofNames names))
        (w.ignoreStack git q (Path.ofNames names)) :=
      ⟨h.absolute, h.absolute', .nil, rfl, hunused, hunused, rfl, rfl, rfl⟩
    obtain ⟨found, hfirst, hsecond, hfound⟩ := filesIn_respelled entries hinner.2
      (hstart.push git (.directory entries)) (List.forall_mem_nil _)
    have hplain : ∀ f ∈ found, ∀ n ∈ f, Path.IsPlain n := by
      intro f hf
      obtain ⟨-, -, hall⟩ := hfound f hf
      exact hall
    refine ⟨found.mergeSort fun a b => Path.componentsLe (a.map .name) (b.map .name), ?_, ?_, ?_⟩
    · rw [walk, hfind, hcanonical, ← map_below_mergeSort p hplain, ← hfirst]
      simp only [filesAt]
      rfl
    · rw [walk, hfind', hcanonical', ← map_below_mergeSort q hplain, ← hsecond]
      simp only [filesAt]
      rfl
    · intro f hf
      rw [List.mem_mergeSort] at hf
      obtain ⟨name, hname, hall⟩ := hfound f hf
      refine ⟨?_, hall⟩
      rintro rfl
      simp at hname
  · cases hdirectory

end Discovery

end SourceAudit
