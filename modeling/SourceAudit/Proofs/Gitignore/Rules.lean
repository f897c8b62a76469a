/-
  SourceAudit/Proofs/Gitignore/Rules.lean
  =======================================
  **What the rules see of `.gitignore` files.**

  Two workspaces are `SameButGitignore` when their erased trees are the same.  What a
  rule asks of a workspace through paths that do not end in `.gitignore` has the same
  answer in both.  For the rules that only look at the files of a run this is all
  (`readable_agree`, `ImportBoundary.check_agrees`).

  Two rules walk the tree themselves, and their walks do look at `.gitignore` files.
  They agree once these walks list the same Dart files (`SameDartWalks`); the rule for
  unused files must also find the same entry points (`UnusedFiles.check_agrees`,
  `UnusedPackages.check_agrees`).
-/
import Mathlib.Data.List.Basic
import SourceAudit.Proofs.Gitignore.Search
import SourceAudit.Proofs.Answers
import SourceAudit.Proofs.Unreached

namespace SourceAudit

open RuleWork (Agrees)
open FileTree (gitignoreName)

/-- Two workspaces that differ in the `.gitignore` files of their trees only. -/
structure SameButGitignore (w w' : Workspace) : Prop where
  proper : w.tree.Proper
  proper' : w'.tree.Proper
  erased : w.erased = w'.erased

/-- The walks that look at the files of git list the same Dart files. -/
def SameDartWalks (w w' : Workspace) : Prop :=
  ∀ directory, (Discovery.walk w true directory).filter Language.dart.owns =
    (Discovery.walk w' true directory).filter Language.dart.owns

namespace SameButGitignore

variable {w w' : Workspace} (h : SameButGitignore w w')

include h

/-! ### What paths find -/

theorem isDirectory_agree (p : Path) : w.isDirectory p = w'.isDirectory p := by
  rw [← Workspace.isDirectory_erased h.proper, h.erased, Workspace.isDirectory_erased h.proper']

theorem isFile_agree {p : Path} (hp : ¬ p.NamesGitignore) : w.isFile p = w'.isFile p := by
  rw [← Workspace.isFile_erased h.proper hp, h.erased, Workspace.isFile_erased h.proper' hp]

theorem readText_agree {p : Path} (hp : ¬ p.NamesGitignore) :
    (w.readText p).toOption = (w'.readText p).toOption := by
  rw [← Workspace.readText_erased h.proper hp, h.erased, Workspace.readText_erased h.proper' hp]

theorem symm : SameButGitignore w' w := ⟨h.proper', h.proper, h.erased.symm⟩

theorem readText_ok {p : Path} (hp : ¬ p.NamesGitignore) {text : String}
    (hread : w.readText p = .ok text) : w'.readText p = .ok text :=
  ok_of_toOption (h.readText_agree hp) hread

theorem discover_agree {d : Discovery} (hgit : d.respectGitignore = false) (p : Path) :
    (d.discover w p).value.toOption = (d.discover w' p).value.toOption := by
  rw [← Discovery.discover_erased h.proper hgit, h.erased,
    Discovery.discover_erased h.proper' hgit]

/-! ### The files of a run -/

theorem readable_agree {l : Language} {files : List Path} (hfiles : ∀ f ∈ files, l.owns f = true)
    (resolver : Resolver) : Run.readable w resolver files = Run.readable w' resolver files := by
  unfold Run.readable
  apply List.filterMap_congr
  intro f hf
  have hpath : ¬ (resolver.base.join f).NamesGitignore :=
    not_namesGitignore_join (not_namesGitignore_of_owns (hfiles f hf))
  simp only [h.readText_agree hpath]

/-! ### Packages -/

theorem root?_agree (start : Path) : DartPackage.root? w start = DartPackage.root? w' start := by
  unfold DartPackage.root?
  congr 1
  funext d
  exact h.isFile_agree (not_namesGitignore_child d (by decide) (by decide))

theorem manifest_agrees (root : Path) :
    Agrees (DartPackage.manifest w root) (DartPackage.manifest w' root) := by
  have hpath : ¬ (root.child Manifest.fileName).NamesGitignore :=
    not_namesGitignore_child root (by decide) (by decide)
  apply Agrees.ofResult
  unfold Manifest.ofFile
  rcases ok_or_error_of_toOption (h.readText_agree hpath) with ⟨s, hfirst, hsecond⟩ | hnone
  · rw [hfirst, hsecond]
  · obtain ⟨e, e', hfirst, hsecond⟩ := hnone
    rw [hfirst, hsecond]
    rfl

theorem directives_agree {f : Path} (hf : ¬ f.NamesGitignore) :
    (DartPackage.directives w f).value = (DartPackage.directives w' f).value := by
  rcases ok_or_error_of_toOption (h.readText_agree hf) with ⟨s, hfirst, hsecond⟩ | hnone
  · rw [DartPackage.directives_value hfirst, DartPackage.directives_value hsecond]
  · obtain ⟨e, e', hfirst, hsecond⟩ := hnone
    rw [DartPackage.directives_value_unreadable hfirst,
      DartPackage.directives_value_unreadable hsecond]

end SameButGitignore

/-! ### Import boundaries -/

theorem not_namesGitignore_folded {l : Language} {base f : Path} (howns : l.owns f = true) :
    ¬ (base.join f).folded.NamesGitignore := by
  intro hgit
  have hname := fileName?_of_namesGitignore hgit
  unfold Language.owns Path.extension? at howns
  cases hf : f.fileName? with
  | none => simp [hf] at howns
  | some name =>
    have hfolded := Path.fileName?_folded (Path.fileName?_join base hf)
    rw [hname, Option.some.injEq] at hfolded
    have hnone : l.owns f = false := owns_of_gitignoreName (hf.trans (congrArg some hfolded.symm))
    unfold Language.owns Path.extension? at hnone
    rw [howns] at hnone
    cases hnone

namespace ImportBoundary

variable {w w' : Workspace} (h : SameButGitignore w w')

include h

theorem checkFile_agree {root : Path} {resolver : Resolver} {all : List Path} {s : Setting}
    {file : Path} (hfile : ¬ file.NamesGitignore) :
    (checkFile ⟨root, all, resolver, w⟩ s file).value =
      (checkFile ⟨root, all, resolver, w'⟩ s file).value := by
  unfold checkFile
  split
  · rfl
  · simp only
    rcases ok_or_error_of_toOption (h.readText_agree hfile) with ⟨text, hfirst, hsecond⟩ | hnone
    · rw [hfirst, hsecond]
      rfl
    · obtain ⟨e, e', hfirst, hsecond⟩ := hnone
      rw [hfirst, hsecond]
      rfl

theorem checkFiles_agree {root : Path} {resolver : Resolver} {all files : List Path}
    {s : Setting} (hfiles : ∀ f ∈ files, ¬ f.folded.NamesGitignore) :
    (checkFiles ⟨root, all, resolver, w⟩ s files).value =
      (checkFiles ⟨root, all, resolver, w'⟩ s files).value := by
  induction files with
  | nil => rfl
  | cons file rest ih =>
    have hrest := ih fun f hf => hfiles f (List.mem_cons_of_mem _ hf)
    rw [checkFiles, checkFiles, Logged.value_bind, Logged.value_bind, Logged.value_bind,
      Logged.value_bind, checkFile_agree h (hfiles file (List.mem_cons_self ..)), hrest]

theorem packageName_agrees {root : Path} {resolver : Resolver} {files : List Path}
    (config : RuleConfig) (directory : Path) :
    Agrees (packageName ⟨root, files, resolver, w⟩ config directory)
      (packageName ⟨root, files, resolver, w'⟩ config directory) := by
  unfold packageName
  simp only [h.root?_agree]
  cases config.text? "package_name" with
  | some name => exact Agrees.refl _
  | none =>
    cases DartPackage.root? w' directory with
    | none => exact Agrees.refl _
    | some root => exact (h.manifest_agrees root).bind fun m => Agrees.refl _

theorem check_agrees {root : Path} {resolver : Resolver} {files : List Path}
    (hfiles : ∀ f ∈ files, ¬ f.folded.NamesGitignore) (config : RuleConfig) :
    Agrees (check ⟨root, files, resolver, w⟩ config)
      (check ⟨root, files, resolver, w'⟩ config) := by
  unfold check
  apply (Agrees.refl _).bind
  intro boundaries
  split
  · exact Agrees.refl _
  · simp only [h.isDirectory_agree]
    split
    · exact Agrees.refl _
    · refine (Agrees.refl _).bind fun excludes => ?_
      refine (packageName_agrees h config _).bind fun package => ?_
      exact (Agrees.lift (checkFiles_agree h hfiles)).bind fun found => Agrees.refl _

end ImportBoundary

/-! ### Walks of the rules -/

namespace DartPackage

variable {w w' : Workspace} (h : SameButGitignore w w') (hwalks : SameDartWalks w w')

include hwalks in
theorem listing_agree (directory : Path) (excludes : List Glob) :
    listing w directory excludes = listing w' directory excludes := by
  unfold listing
  rw [hwalks directory]

theorem not_namesGitignore_of_mem_listing {w : Workspace} {directory f : Path}
    {excludes : List Glob} (hf : f ∈ listing w directory excludes) : ¬ f.NamesGitignore := by
  obtain ⟨file, hfile, rfl⟩ := List.mem_map.mp (List.mem_filter.mp hf).1
  exact not_namesGitignore_of_owns (owns_folded (List.mem_filter.mp hfile).2)

include h hwalks in
theorem files_agrees {directory : Path} (hdirectory : w'.isDirectory directory = true)
    (excludes : List Glob) : Agrees (files w directory excludes) (files w' directory excludes) := by
  have hdirectory' := (h.isDirectory_agree directory).trans hdirectory
  unfold Agrees
  rw [files_run excludes hdirectory, files_run excludes hdirectory', listing_agree hwalks]

end DartPackage

namespace UnusedPackages

variable {w w' : Workspace} (h : SameButGitignore w w') (hwalks : SameDartWalks w w')

include h

theorem usedIn_agree {files : List Path} (hfiles : ∀ f ∈ files, ¬ f.NamesGitignore) :
    (usedIn w files).value = (usedIn w' files).value := by
  induction files with
  | nil => rfl
  | cons f rest ih =>
    have hf := h.directives_agree (hfiles f (List.mem_cons_self ..))
    have hrest := ih fun g hg => hfiles g (List.mem_cons_of_mem _ hg)
    rw [usedIn, usedIn, Logged.value_bind, Logged.value_bind, Logged.value_bind,
      Logged.value_bind, hf, hrest]

include hwalks

theorem usedBelow_agrees (root : Path) (paths : List String) :
    Agrees (usedBelow w root paths) (usedBelow w' root paths) := by
  induction paths with
  | nil => exact Agrees.refl _
  | cons path rest ih =>
    unfold usedBelow
    simp only [h.isDirectory_agree]
    split
    · next hdirectory =>
      refine (DartPackage.files_agrees h hwalks hdirectory []).bind_of fun found hfound => ?_
      rw [DartPackage.files_run [] hdirectory] at hfound
      obtain rfl := Except.ok.inj hfound
      refine (Agrees.lift (usedIn_agree h ?_)).bind fun used => ih.bind fun more => Agrees.refl _
      intro f hf
      exact DartPackage.not_namesGitignore_of_mem_listing hf
    · exact (Agrees.refl _).bind fun used => ih.bind fun more => Agrees.refl _

theorem check_agrees {root : Path} {resolver : Resolver} {files : List Path} (config : RuleConfig) :
    Agrees (check ⟨root, files, resolver, w⟩ config)
      (check ⟨root, files, resolver, w'⟩ config) := by
  unfold check
  simp only [h.root?_agree]
  cases DartPackage.root? w' root with
  | none => exact Agrees.refl _
  | some start =>
    unfold checkPackage
    refine (h.manifest_agrees start).bind fun manifest => ?_
    refine (Agrees.refl _).bind fun severity => (Agrees.refl _).bind fun scanned => ?_
    refine (usedBelow_agrees h hwalks start _).bind fun used => ?_
    dsimp only
    split
    · exact (usedBelow_agrees h hwalks start _).bind fun usedDev => Agrees.refl _
    · exact Agrees.refl _

end UnusedPackages

namespace UnusedFiles

open Relation (ReflTransGen)
open DartPackage (Included listing files_run)

variable {w w' : Workspace} (h : SameButGitignore w w')

include h

theorem names_of_agree {g : Package} {a b : Path} (ha : ¬ a.NamesGitignore)
    (hb : ¬ b.NamesGitignore) (hnames : g.Names w a b) : g.Names w' a b := by
  obtain ⟨text, hread, d, hd, hresolves, hfile⟩ := hnames
  rw [h.isFile_agree hb] at hfile
  exact ⟨text, h.readText_ok ha hread, d, hd, hresolves, hfile⟩

/-- A chain to one of the files passes no `.gitignore` file, so it is a chain in both. -/
theorem chain_of_agree {g : Package} {files : List Path}
    (hfiles : ∀ f ∈ files, ¬ f.NamesGitignore) {start f : Path} (hf : f ∈ files)
    (hchain : ReflTransGen (Reachable.Edge (g.edges w files).value) start f) :
    ¬ start.NamesGitignore ∧
      ReflTransGen (Reachable.Edge (g.edges w' files).value) start f := by
  induction hchain using ReflTransGen.head_induction_on with
  | refl => exact ⟨hfiles f hf, .refl⟩
  | head hedge _ ih =>
    obtain ⟨hnext, hrest⟩ := ih
    rw [Package.edge_iff] at hedge
    obtain ⟨hmem, hnames⟩ := hedge
    have hstart := hfiles _ hmem
    refine ⟨hstart, .head ?_ hrest⟩
    rw [Package.edge_iff]
    exact ⟨hmem, names_of_agree h hstart hnext hnames⟩

theorem unreached_agree {g : Package} {files starts starts' : List Path}
    (hfiles : ∀ f ∈ files, ¬ f.NamesGitignore)
    (hstarts : ∀ s, ¬ s.NamesGitignore → (s ∈ starts ↔ s ∈ starts')) :
    unreached files starts (g.edges w files).value =
      unreached files starts' (g.edges w' files).value := by
  unfold unreached
  apply List.filter_congr
  intro f hf
  have hsame : f ∈ Reachable.fromStarts starts (g.edges w files).value ↔
      f ∈ Reachable.fromStarts starts' (g.edges w' files).value := by
    rw [Reachable.mem_fromStarts_iff, Reachable.mem_fromStarts_iff]
    constructor
    · rintro ⟨start, hstart, hchain⟩
      obtain ⟨hplain, hchain⟩ := chain_of_agree h hfiles hf hchain
      exact ⟨start, (hstarts start hplain).mp hstart, hchain⟩
    · rintro ⟨start, hstart, hchain⟩
      obtain ⟨hplain, hchain⟩ := chain_of_agree h.symm hfiles hf hchain
      exact ⟨start, (hstarts start hplain).mpr hstart, hchain⟩
  simp [hsame]

theorem included_of_agree (hwalks : SameDartWalks w w') {directory f : Path}
    {excludes : List Glob} (hf : Included w directory excludes f) :
    Included w' directory excludes f := by
  obtain ⟨file, hfile, howns, hfolded⟩ := hf.listed
  have hmem : file ∈ (Discovery.walk w true directory).filter Language.dart.owns :=
    List.mem_filter.mpr ⟨hfile, howns⟩
  rw [hwalks directory] at hmem
  refine ⟨?_, ⟨file, (List.mem_filter.mp hmem).1, howns, hfolded⟩, hf.not_left_out⟩
  rw [← h.isDirectory_agree]
  exact hf.directory_exists

omit h in
theorem not_namesGitignore_of_included {w : Workspace} {directory f : Path} {excludes : List Glob}
    (hf : Included w directory excludes f) : ¬ f.NamesGitignore := by
  obtain ⟨file, -, howns, rfl⟩ := hf.listed
  exact not_namesGitignore_of_owns (owns_folded howns)

theorem named_by_test_of_agree (hwalks : SameDartWalks w w') {g : Package} {directory s : Path}
    {excludes : List Glob} (hs : ¬ s.NamesGitignore)
    (hnamed : ∃ t, Included w directory excludes t ∧ g.Names w t s) :
    ∃ t, Included w' directory excludes t ∧ g.Names w' t s := by
  obtain ⟨t, ht, hnames⟩ := hnamed
  exact ⟨t, included_of_agree h hwalks ht,
    names_of_agree h (not_namesGitignore_of_included ht) hs hnames⟩

theorem checkDirectory_agrees (hwalks : SameDartWalks w w') {root : Path} {resolver : Resolver}
    {files : List Path} {config : RuleConfig}
    (hentries : ∀ root, entryPoints w root config = entryPoints w' root config)
    {package directory : Path} (hdirectory : w'.isDirectory directory = true) :
    Agrees (checkDirectory ⟨root, files, resolver, w⟩ config package directory)
      (checkDirectory ⟨root, files, resolver, w'⟩ config package directory) := by
  unfold checkDirectory
  refine (Agrees.refl _).bind fun excludes => ?_
  refine (h.manifest_agrees package).bind fun manifest => ?_
  refine (DartPackage.files_agrees h hwalks hdirectory excludes).bind_of fun found hfound => ?_
  rw [files_run excludes hdirectory] at hfound
  obtain rfl := Except.ok.inj hfound
  split
  · exact Agrees.refl _
  · unfold Agrees
    rw [RuleWork.value_bind, RuleWork.value_bind, RuleWork.value_lift, RuleWork.value_lift]
    simp only [Except.bind, hentries]
    cases entryPoints w' package config with
    | nil => rfl
    | cons entry more =>
      obtain ⟨targets, htargets, hmem⟩ :=
        testTargets_run w ⟨package, manifest.name⟩ config excludes
      obtain ⟨targets', htargets', hmem'⟩ :=
        testTargets_run w' ⟨package, manifest.name⟩ config excludes
      have hstarts : ∀ s, ¬ s.NamesGitignore →
          (s ∈ entry :: more ++ targets ↔ s ∈ entry :: more ++ targets') := by
        intro s hs
        rw [List.mem_append, List.mem_append, hmem, hmem']
        refine or_congr Iff.rfl (and_congr Iff.rfl ⟨?_, ?_⟩)
        · exact named_by_test_of_agree h hwalks hs
        · exact named_by_test_of_agree h.symm (fun d => (hwalks d).symm) hs
      simp only [RuleWork.value_bind, htargets, htargets', Except.bind, RuleWork.value_debug,
        RuleWork.value_pure]
      rw [unreached_agree h (fun f hf => DartPackage.not_namesGitignore_of_mem_listing hf) hstarts]
      rfl

theorem check_agrees (hwalks : SameDartWalks w w') {root : Path} {resolver : Resolver}
    {files : List Path} {config : RuleConfig}
    (hentries : ∀ root, entryPoints w root config = entryPoints w' root config) :
    Agrees (check ⟨root, files, resolver, w⟩ config)
      (check ⟨root, files, resolver, w'⟩ config) := by
  unfold check
  simp only [h.root?_agree]
  cases DartPackage.root? w' root with
  | none => exact Agrees.refl _
  | some start =>
    simp only [h.isDirectory_agree]
    split
    · exact Agrees.refl _
    · next hdirectory =>
      exact checkDirectory_agrees h hwalks hentries (by simpa using hdirectory)

end UnusedFiles

end SourceAudit
