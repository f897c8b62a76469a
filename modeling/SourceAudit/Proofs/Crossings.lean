/-
  SourceAudit/Proofs/Crossings.lean
  =================================
  **The imports that cross a boundary.**

  A boundary covers the files of the analysed directory that its first glob accepts, without
  those that are left out (`Setting.Covers`).  It forbids an import when one of its other globs
  accepts the path the import leads to or, for an import that is not relative, its URI
  (`Setting.Forbids`).  A place is a file of the run, an entry of the option and a line of the
  file; the crossings are the places where a readable file covered by the entry has an import
  that the entry forbids (`Crossing`).

  * `boundaries_eq_ok_iff`: the boundaries are what the entries of the option ask for;
  * `mem_crossings_iff`, `crossings_increasing`: all crossings, by file, entry and line;
  * `check_tells_crossings`: these are told, each once and in this order; where an entry is
    malformed, or a glob or the manifest cannot be read, the rule fails.
-/
import Mathlib.Data.List.Forall2
import SourceAudit.Proofs.SingleFile
import SourceAudit.Proofs.StatementLines

namespace SourceAudit

/-! ### Lists with positions -/

/-- What is found with each item, under the position of the item. -/
def foundAt {α β : Type} (items : List α) (find : α → List β) : List (Nat × β) :=
  items.zipIdx.flatMap fun a => (find a.1).map (a.2, ·)

section FoundAt

variable {α β : Type} {items : List α} {find : α → List β}

theorem mem_foundAt_iff {i : Nat} {b : β} :
    (i, b) ∈ foundAt items find ↔ ∃ a, items[i]? = some a ∧ b ∈ find a := by
  rw [foundAt, List.mem_flatMap]
  constructor
  · rintro ⟨⟨a, position⟩, ha, hb⟩
    obtain ⟨found, hfound, hpair⟩ := List.mem_map.mp hb
    obtain ⟨rfl, rfl⟩ := Prod.mk.inj hpair
    exact ⟨a, List.mem_zipIdx_iff_getElem?.mp ha, hfound⟩
  · rintro ⟨a, ha, hb⟩
    exact ⟨(a, i), List.mem_zipIdx_iff_getElem?.mpr ha, List.mem_map_of_mem hb⟩

theorem foundAt_increasing {R : β → β → Prop} (hfind : ∀ a, (find a).Pairwise R) :
    (foundAt items find).Pairwise (Prod.Lex (· < ·) R) := by
  have hpositions : items.zipIdx.Pairwise fun a b => a.2 < b.2 := by
    rw [← List.pairwise_map (f := Prod.snd), List.zipIdx_map_snd]
    exact List.pairwise_lt_range'
  rw [foundAt, List.pairwise_flatMap]
  constructor
  · intro a _
    rw [List.pairwise_map]
    exact (hfind a.1).imp fun h => .right _ h
  · refine hpositions.imp ?_
    intro a b hab x hx y hy
    obtain ⟨-, -, rfl⟩ := List.mem_map.mp hx
    obtain ⟨-, -, rfl⟩ := List.mem_map.mp hy
    exact .left _ _ hab

theorem map_foundAt {γ : Type} (g : β → γ) :
    (foundAt items find).map (fun a => g a.2) = items.flatMap fun a => (find a).map g := by
  rw [foundAt, List.map_flatMap]
  simp only [List.map_map, Function.comp_def]
  rw [← List.flatMap_map Prod.fst (fun a => (find a).map g), List.zipIdx_map_fst]

end FoundAt

namespace ImportBoundary

/-! ### The boundaries of an option -/

theorem read_eq_ok_iff {option pattern : String} {glob : Glob} :
    PatternOption.read option pattern = .ok glob ↔ Glob.read pattern = .ok glob := by
  rw [PatternOption.read]
  cases Glob.read pattern <;> simp

/-- The globs are those of the patterns. -/
def AreRead (patterns : List String) (globs : List Glob) : Prop :=
  List.Forall₂ (fun pattern glob => Glob.read pattern = .ok glob) patterns globs

theorem readAll_eq_ok_iff {option : String} {patterns : List String} {globs : List Glob} :
    PatternOption.readAll option patterns = .ok globs ↔ AreRead patterns globs := by
  rw [PatternOption.readAll, mapM_eq_ok_iff, AreRead]
  simp only [read_eq_ok_iff]

theorem severity_eq_ok_iff {option : String} {default severity : Severity}
    {written : Option String} : PatternOption.severity option default written = .ok severity ↔
      (written = none ∧ severity = default) ∨
        ∃ name, written = some name ∧ Severity.ofName? name = some severity := by
  cases written with
  | none => simp [PatternOption.severity, eq_comm]
  | some name =>
    rw [PatternOption.severity]
    cases hknown : Severity.ofName? name <;> simp [hknown]

/-- An entry of the option, with globs that can be read and a severity that is known, is the
    boundary. -/
structure Boundary.WrittenAs (b : Boundary) (source : String) (draft : Draft) : Prop where
  source : Glob.read source = .ok b.source
  targets : AreRead draft.targets b.targets
  severity : (draft.severity = none ∧ b.severity = .error) ∨
    ∃ name, draft.severity = some name ∧ Severity.ofName? name = some b.severity
  message : b.message = draft.message.getD "Architecture violation"

theorem boundary_eq_ok_iff {index : Nat} {source : String} {draft : Draft} {b : Boundary} :
    boundary index source draft = .ok b ↔ b.WrittenAs source draft := by
  rw [boundary]
  simp only [bind_eq_ok_iff, severity_eq_ok_iff, read_eq_ok_iff, readAll_eq_ok_iff]
  constructor
  · rintro ⟨severity, hseverity, glob, hsource, targets, htargets, hb⟩
    obtain rfl := Except.ok.inj hb
    exact ⟨hsource, htargets, hseverity, rfl⟩
  · rintro ⟨hsource, htargets, hseverity, hmessage⟩
    refine ⟨_, hseverity, _, hsource, _, htargets, ?_⟩
    rw [← hmessage]
    rfl

theorem boundariesFrom_eq_ok_iff {position : Nat} {drafts : List (String × Draft)}
    {bs : List Boundary} : boundariesFrom position drafts = .ok bs ↔
      List.Forall₂ (fun d b => Boundary.WrittenAs b d.1 d.2) drafts bs := by
  induction drafts generalizing position bs with
  | nil =>
    rw [boundariesFrom, List.forall₂_nil_left_iff]
    exact ⟨fun h => (Except.ok.inj h).symm, fun h => congrArg _ h.symm⟩
  | cons d drafts ih =>
    rw [boundariesFrom, bind_eq_ok_iff, List.forall₂_cons_left_iff]
    simp only [boundary_eq_ok_iff, bind_eq_ok_iff, ih]
    constructor
    · rintro ⟨b, hb, more, hmore, hall⟩
      exact ⟨b, more, hb, hmore, (Except.ok.inj hall).symm⟩
    · rintro ⟨b, more, hb, hmore, rfl⟩
      exact ⟨b, hb, more, hmore, rfl⟩

/-- The value has the form of an entry and asks for the boundary. -/
def Boundary.IsEntry (b : Boundary) (entry : Datum) : Prop :=
  ∃ source draft, Draft.ofDatum entry = .ok (source, draft) ∧ b.WrittenAs source draft

/-- The option is absent, or a list of entries for the boundaries. -/
inductive Declares (config : RuleConfig) : List Boundary → Prop
  | nothing (habsent : config.option? "forbidden_imports" = none) : Declares config []
  | entries {entries : List Datum} {bs : List Boundary}
      (hoption : config.option? "forbidden_imports" = some (.list entries))
      (hentries : List.Forall₂ (fun entry b => Boundary.IsEntry b entry) entries bs) :
      Declares config bs

/-- Two readings after each other are one, item by item. -/
theorem forall₂_comp_iff {α β γ : Type} {R : α → β → Prop} {S : β → γ → Prop} {as : List α}
    {cs : List γ} : (∃ bs, List.Forall₂ R as bs ∧ List.Forall₂ S bs cs) ↔
      List.Forall₂ (fun a c => ∃ b, R a b ∧ S b c) as cs := by
  constructor
  · rintro ⟨bs, hR, hS⟩
    induction hR generalizing cs with
    | nil =>
      cases hS
      exact .nil
    | cons hab _ ih =>
      cases hS with
      | cons hbc hrest => exact .cons ⟨_, hab, hbc⟩ (ih hrest)
  · intro h
    induction h with
    | nil => exact ⟨[], .nil, .nil⟩
    | cons hac _ ih =>
      obtain ⟨b, hab, hbc⟩ := hac
      obtain ⟨bs, hR, hS⟩ := ih
      exact ⟨b :: bs, .cons hab hR, .cons hbc hS⟩

theorem boundaries_eq_ok_iff {config : RuleConfig} {bs : List Boundary} :
    boundaries config = .ok bs ↔ Declares config bs := by
  have hentries {entries : List Datum} :
      (∃ drafts, Shape.list Draft.ofDatum (.list entries) = .ok drafts ∧
        boundariesFrom 0 drafts = .ok bs) ↔
      List.Forall₂ (fun entry b => Boundary.IsEntry b entry) entries bs := by
    simp only [Shape.list, mapM_eq_ok_iff, boundariesFrom_eq_ok_iff, forall₂_comp_iff,
      Prod.exists, Boundary.IsEntry]
  rw [boundaries]
  constructor
  · intro h
    split at h
    · next habsent =>
      obtain rfl := Except.ok.inj h
      exact .nothing habsent
    · next d hoption =>
      split at h
      · cases h
      · next drafts hdrafts =>
        cases d with
        | list entries => exact .entries hoption (hentries.mp ⟨drafts, hdrafts, h⟩)
        | null | bool _ | number _ | text _ | table _ => cases hdrafts
  · intro h
    cases h with
    | nothing habsent => rw [habsent]
    | entries hoption hall =>
      obtain ⟨drafts, hdrafts, hbs⟩ := hentries.mpr hall
      simp only [hoption, hdrafts, hbs]

/-- The option is not a list, or one of its entries is not that of a boundary. -/
def Malformed (config : RuleConfig) : Prop :=
  ∃ d, config.option? "forbidden_imports" = some d ∧
    ∀ entries, d = .list entries → ∃ entry ∈ entries, ∀ b : Boundary, ¬ b.IsEntry entry

theorem exists_forall₂_iff {α β : Type} {R : α → β → Prop} {as : List α} :
    (∃ bs, List.Forall₂ R as bs) ↔ ∀ a ∈ as, ∃ b, R a b := by
  induction as with
  | nil => exact ⟨fun _ => List.forall_mem_nil _, fun _ => ⟨[], .nil⟩⟩
  | cons a as ih =>
    rw [List.forall_mem_cons, ← ih]
    constructor
    · rintro ⟨bs, h⟩
      obtain ⟨b, more, hb, hmore, -⟩ := List.forall₂_cons_left_iff.mp h
      exact ⟨⟨b, hb⟩, more, hmore⟩
    · rintro ⟨⟨b, hb⟩, more, hmore⟩
      exact ⟨b :: more, .cons hb hmore⟩

theorem malformed_iff {config : RuleConfig} : Malformed config ↔ ∀ bs, ¬ Declares config bs := by
  constructor
  · rintro ⟨d, hoption, hbad⟩ bs hdeclares
    cases hdeclares with
    | nothing habsent =>
      rw [hoption] at habsent
      cases habsent
    | entries hentries hall =>
      rw [hoption, Option.some.injEq] at hentries
      obtain ⟨entry, hmem, hnone⟩ := hbad _ hentries
      obtain ⟨b, hb⟩ := exists_forall₂_iff.mp ⟨bs, hall⟩ entry hmem
      exact hnone b hb
  · intro hnone
    cases hoption : config.option? "forbidden_imports" with
    | none => exact absurd (.nothing hoption) (hnone [])
    | some d =>
      refine ⟨d, hoption, ?_⟩
      rintro entries rfl
      by_contra! hall
      obtain ⟨bs, hbs⟩ := exists_forall₂_iff.mpr hall
      exact hnone bs (.entries hoption hbs)

/-! ### What the files are held against -/

/-- The name of the analysed package: the one of the option, or else the one in the nearest
    manifest, if there is a manifest and it can be read. -/
inductive Named (w : Workspace) (config : RuleConfig) (directory : Path) : Option String → Prop
  | given {name : String} (hgiven : config.text? "package_name" = some name) :
      Named w config directory (some name)
  | nowhere (hgiven : config.text? "package_name" = none)
      (hroot : DartPackage.root? w directory = none) : Named w config directory none
  | manifest {root : Path} {m : Manifest} (hgiven : config.text? "package_name" = none)
      (hroot : DartPackage.root? w directory = some root)
      (hread : Manifest.ofFile w (root.child Manifest.fileName) = .ok m) :
      Named w config directory m.name

theorem packageName_eq_ok_iff {p : ProjectContext} {config : RuleConfig} {directory : Path}
    {package : Option String} : (packageName p config directory).run.value = .ok package ↔
      Named p.workspace config directory package := by
  constructor
  · intro h
    rw [packageName] at h
    split at h
    · next name hgiven =>
      obtain rfl := Except.ok.inj h
      exact .given hgiven
    · next hgiven hroot =>
      obtain rfl := Except.ok.inj h
      exact .nowhere hgiven hroot
    · next root hgiven hroot =>
      rw [RuleWork.value_bind] at h
      obtain ⟨m, hread, hname⟩ := bind_eq_ok_iff.mp h
      obtain rfl := Except.ok.inj hname
      exact .manifest hgiven hroot hread
  · intro hnamed
    rw [packageName]
    cases hnamed with
    | given hgiven => rw [hgiven]; rfl
    | nowhere hgiven hroot => rw [hgiven, hroot]; rfl
    | manifest hgiven hroot hread =>
      simp only [hgiven, hroot, DartPackage.manifest, hread, RuleWork.value_bind,
        RuleWork.value_ofResult]
      rfl

/-- The analysed directory. -/
def analysed (p : ProjectContext) (config : RuleConfig) : Path :=
  p.root.join ⟨(config.text? "analyze_path").getD "."⟩

/-- The patterns for files that are left out. -/
def excluded (config : RuleConfig) : List String :=
  (config.texts? "exclude_patterns").getD PatternOption.generated

/-- The directory, the boundaries, the globs for files that are left out and the name of the
    package are those of a configuration. -/
structure Setting.IsFor (s : Setting) (p : ProjectContext) (config : RuleConfig) : Prop where
  directory : s.directory = (analysed p config).folded
  boundaries : Declares config s.boundaries
  excludes : AreRead (excluded config) s.excludes
  package : Named p.workspace config s.directory s.package

theorem settingOf_eq_some_iff {p : ProjectContext} {config : RuleConfig} {s : Setting} :
    settingOf p config = .ok (some s) ↔ s.IsFor p config ∧ s.boundaries ≠ [] ∧
      p.workspace.isDirectory s.directory = true := by
  constructor
  · intro h
    rw [settingOf, ← analysed] at h
    split at h
    · cases h
    · cases h
    · next found hne hfound =>
      simp only at h
      split at h
      · next hdirectory =>
        obtain ⟨excludes, hexcludes, h⟩ := bind_eq_ok_iff.mp h
        obtain ⟨package, hpackage, h⟩ := bind_eq_ok_iff.mp h
        have hglobs : AreRead (excluded config) excludes := readAll_eq_ok_iff.mp hexcludes
        have hnamed := packageName_eq_ok_iff.mp hpackage
        have hdeclares := boundaries_eq_ok_iff.mp hfound
        rw [← Option.some.inj (Except.ok.inj h)]
        refine ⟨⟨?_, hdeclares, hglobs, ?_⟩, fun hnil => hne hnil, ?_⟩
        · simp only
        · simpa only using hnamed
        · simpa only using hdirectory
      · cases h
  · rintro ⟨⟨hat, hboundaries, hexcludes, hpackage⟩, hsome, hdirectory⟩
    obtain ⟨directory, found, excludes, package⟩ := s
    obtain ⟨first, rest, rfl⟩ := List.exists_cons_of_ne_nil hsome
    simp only at hat hboundaries hexcludes hpackage hdirectory
    subst hat
    rw [← boundaries_eq_ok_iff] at hboundaries
    rw [← packageName_eq_ok_iff, analysed] at hpackage
    have hread : PatternOption.excludes config = .ok excludes := readAll_eq_ok_iff.mpr hexcludes
    rw [analysed] at hdirectory
    rw [settingOf, hboundaries]
    simp only [hdirectory, if_true, hread, hpackage]
    rfl

/-! ### Files and imports that a boundary is about -/

/-- The boundary is for the file: it lies in the directory, is left out neither by its name nor
    by its path there, and has a path there that the boundary is for. -/
def Setting.Covers (s : Setting) (file : Path) (b : Boundary) : Prop :=
  ∃ q, file.Behind s.directory q ∧
    (∀ g ∈ s.excludes, PatternOption.accepts g (file.folded.fileName?.getD "") = false ∧
      PatternOption.accepts g q.slashText = false) ∧
    PatternOption.accepts b.source q.slashText = true

/-- The URI of an import in the file leads to a path below the directory: what stands behind
    the start of a URI of the own package, or where a relative URI goes from the file. -/
inductive Setting.LeadsTo (s : Setting) (file : Path) (uri : String) : String → Prop
  | package {package rest : String} (hpackage : s.package = some package)
      (huri : uri = DartPackage.ownStart package ++ rest) : LeadsTo s file uri rest
  | relative {parent q : Path} (hrelative : isRelative uri = true)
      (hparent : file.folded.parent? = some parent)
      (hbehind : (parent.join ⟨uri⟩).Behind s.directory q) : LeadsTo s file uri q.slashText

/-- The boundary forbids the import: a glob accepts the path it leads to or, if it is not
    relative, its URI. -/
def Setting.Forbids (s : Setting) (file : Path) (b : Boundary) (uri : String) : Prop :=
  ∃ target ∈ b.targets,
    (∃ path, s.LeadsTo file uri path ∧ PatternOption.accepts target path = true) ∨
      (isRelative uri = false ∧ PatternOption.accepts target uri = true)

/-- The boundary is for the file, as the rule finds out. -/
def Setting.isAbout (s : Setting) (file : Path) (b : Boundary) : Bool :=
  ((file.relativeTo? s.directory).map Path.slashText).any fun relative =>
    !PatternOption.leavesOut s.excludes file relative && PatternOption.accepts b.source relative

theorem boundariesFor_eq (s : Setting) (file : Path) :
    s.boundariesFor file = s.boundaries.filter (s.isAbout file) := by
  unfold Setting.boundariesFor Setting.isAbout
  split
  · next hnone => simp [hnone]
  · next relative hrelative =>
    simp only [hrelative, Option.any_some]
    split
    · next hleft => simp [hleft]
    · next hkept => simp [hkept]

section

variable {s : Setting} (hfolded : s.directory.folded = s.directory)

include hfolded

theorem relativeTo?_eq_some_iff {p q : Path} :
    p.folded.relativeTo? s.directory = some q ↔ p.Behind s.directory q := by
  rw [← hfolded, Path.relativeTo?_folded_iff, hfolded]

theorem isAbout_iff {file : Path} {b : Boundary} :
    s.isAbout file.folded b = true ↔ s.Covers file b := by
  simp only [Setting.isAbout, Option.any_eq_true, Option.map_eq_some_iff,
    relativeTo?_eq_some_iff hfolded, Bool.and_eq_true, Bool.not_eq_true', Setting.Covers,
    PatternOption.leavesOut, List.any_eq_false, Bool.or_eq_true, not_or, Bool.not_eq_true]
  constructor
  · rintro ⟨relative, ⟨q, hq, rfl⟩, hkept, hsource⟩
    exact ⟨q, hq, hkept, hsource⟩
  · rintro ⟨q, hq, hkept, hsource⟩
    exact ⟨q.slashText, ⟨q, hq, rfl⟩, hkept, hsource⟩

/-- A URI of the own package is not relative, so that an import leads to one path at most. -/
theorem resolve?_eq_some_iff {file : Path} {uri path : String} :
    resolve? s.directory s.package file.folded uri = some path ↔ s.LeadsTo file uri path := by
  constructor
  · intro h
    rw [resolve?] at h
    split at h
    · next rest hrest =>
      obtain rfl := Option.some.inj h
      obtain ⟨package, hpackage, hafter⟩ := Option.bind_eq_some_iff.mp hrest
      exact .package hpackage (DartPackage.afterStart?_eq_some_iff.mp hafter)
    · split at h
      · next hrelative =>
        obtain ⟨parent, hparent, hmap⟩ := Option.bind_eq_some_iff.mp h
        obtain ⟨q, hq, rfl⟩ := Option.map_eq_some_iff.mp hmap
        exact .relative hrelative hparent ((relativeTo?_eq_some_iff hfolded).mp hq)
      · cases h
  · intro h
    cases h with
    | package hpackage huri =>
      have hafter := DartPackage.afterStart?_eq_some_iff.mpr huri
      rw [resolve?, hpackage, Option.bind_some, hafter]
    | @relative parent q hrelative hparent hbehind =>
      -- the first branch is closed: what begins with `package:` is not relative
      have hother : (s.package.bind fun name =>
          DartPackage.afterStart? (DartPackage.ownStart name) uri) = none := by
        rw [Option.bind_eq_none_iff]
        intro name _
        rw [Option.eq_none_iff_forall_not_mem]
        intro rest hrest
        rw [DartPackage.afterStart?_eq_some_iff.mp hrest, isRelative_package] at hrelative
        cases hrelative
      have hq := (relativeTo?_eq_some_iff hfolded).mpr hbehind
      simp [resolve?, hother, hrelative, hparent, hq]

theorem isCrossedBy_iff {file : Path} {b : Boundary} {i : Directive} :
    b.isCrossedBy (i, resolve? s.directory s.package file.folded i.uri) = true ↔
      s.Forbids file b i.uri := by
  simp only [Boundary.isCrossedBy, List.any_eq_true, Bool.or_eq_true, Option.any_eq_true,
    Bool.and_eq_true, Bool.not_eq_true', Setting.Forbids, resolve?_eq_some_iff hfolded]

end

/-! ### Crossings -/

/-- The position of a file in the run and of an entry in the option, a line of the file, and
    what is told of the crossing there. -/
abbrev Told := Nat × Nat × Nat × Violation

/-- By file, then by entry, then by line. -/
def Told.Before : Told → Told → Prop :=
  Prod.Lex (· < ·) (Prod.Lex (· < ·) fun a b => a.1 < b.1)

/-- A readable file covered by an entry has an import on a line that the entry forbids. -/
inductive Crossing (p : ProjectContext) (s : Setting) : Told → Prop
  | mk {f e : Nat} {file : Path} {b : Boundary} {content shown : String} {i : Directive}
      (hfile : p.files[f]? = some file) (hentry : s.boundaries[e]? = some b)
      (hcovers : s.Covers file b) (hread : p.workspace.readText file.folded = .ok content)
      (himport : i ∈ Directive.importsOf file.folded content.toList)
      (hforbids : s.Forbids file b i.uri) (hshown : shown = p.relativePath file.folded) :
      Crossing p s (f, e, i.line, ⟨shown, name, b.severity,
        s!"Architecture violation: {shown} imports '{i.uri}' - {b.message} (line {i.line})",
        none⟩)

/-- The imports of a file that can be read. -/
def importsIn (p : ProjectContext) (s : Setting) (file : Path) : List ResolvedImport :=
  match p.workspace.readText file with
  | .ok content => s.importsOf file content
  | .error _ => []

/-- What is told of the crossings of one boundary in one file, by their lines. -/
def crossingsOf (p : ProjectContext) (s : Setting) (file : Path) (b : Boundary) :
    List (Nat × Violation) :=
  if s.isAbout file b then
    ((importsIn p s file).filter b.isCrossedBy).map fun i =>
      (i.1.line, b.violation (p.relativePath file) i.1)
  else []

def crossings (p : ProjectContext) (s : Setting) : List Told :=
  foundAt p.files fun file => foundAt s.boundaries (crossingsOf p s file.folded)

theorem mem_importsIn_iff {p : ProjectContext} {s : Setting} {file : Path} {i : Directive}
    {resolved : Option String} : (i, resolved) ∈ importsIn p s file ↔
      ∃ content, p.workspace.readText file = .ok content ∧
        i ∈ Directive.importsOf file content.toList ∧
        resolve? s.directory s.package file i.uri = resolved := by
  rw [importsIn]
  cases p.workspace.readText file with
  | error reason => simp
  | ok content =>
    simp only [Setting.importsOf, List.mem_map, Prod.mk.injEq, Except.ok.injEq, exists_eq_left']
    constructor
    · rintro ⟨d, hd, rfl, hresolved⟩
      exact ⟨hd, hresolved⟩
    · rintro ⟨hd, hresolved⟩
      exact ⟨i, hd, rfl, hresolved⟩

theorem importsIn_increasing (p : ProjectContext) (s : Setting) (file : Path) :
    (importsIn p s file).Pairwise fun i j => i.1.line < j.1.line := by
  rw [importsIn]
  split
  · rw [Setting.importsOf, List.pairwise_map]
    exact Directive.importsOf_increasing ..
  · exact .nil

theorem crossings_increasing (p : ProjectContext) (s : Setting) :
    (crossings p s).Pairwise Told.Before := by
  refine foundAt_increasing fun file => foundAt_increasing fun b => ?_
  rw [crossingsOf]
  split
  · rw [List.pairwise_map]
    exact (importsIn_increasing ..).filter _
  · exact .nil

theorem mem_crossingsOf_iff {p : ProjectContext} {s : Setting}
    (hfolded : s.directory.folded = s.directory) {file : Path} {b : Boundary} {line : Nat}
    {v : Violation} : (line, v) ∈ crossingsOf p s file.folded b ↔
      s.Covers file b ∧ ∃ content, p.workspace.readText file.folded = .ok content ∧
        ∃ i ∈ Directive.importsOf file.folded content.toList, s.Forbids file b i.uri ∧
          line = i.line ∧ v = b.violation (p.relativePath file.folded) i := by
  rw [crossingsOf, ← isAbout_iff hfolded]
  split
  · next habout =>
    simp only [List.mem_map, List.mem_filter, Prod.exists, mem_importsIn_iff, habout, true_and]
    constructor
    · rintro ⟨i, _, ⟨⟨content, hread, himport, rfl⟩, hcrossed⟩, hpair⟩
      obtain ⟨rfl, rfl⟩ := Prod.mk.inj hpair
      exact ⟨content, hread, i, himport, (isCrossedBy_iff hfolded).mp hcrossed, rfl, rfl⟩
    · rintro ⟨content, hread, i, himport, hforbids, rfl, rfl⟩
      have hcrossed := (isCrossedBy_iff hfolded).mpr hforbids
      exact ⟨i, _, ⟨⟨content, hread, himport, rfl⟩, hcrossed⟩, rfl⟩
  · next hother => simp [hother]

theorem mem_crossings_iff {p : ProjectContext} {s : Setting}
    (hfolded : s.directory.folded = s.directory) {t : Told} :
    t ∈ crossings p s ↔ Crossing p s t := by
  obtain ⟨f, e, line, v⟩ := t
  simp only [crossings, mem_foundAt_iff, mem_crossingsOf_iff hfolded]
  constructor
  · rintro ⟨file, hfile, b, hentry, hcovers, content, hread, i, himport, hforbids, rfl, rfl⟩
    exact .mk hfile hentry hcovers hread himport hforbids rfl
  · intro hcrossing
    cases hcrossing with
    | mk hfile hentry hcovers hread himport hforbids hshown =>
      subst hshown
      exact ⟨_, hfile, _, hentry, hcovers, _, hread, _, himport, hforbids, rfl, rfl⟩

theorem flatMap_filter {α β : Type} (f : α → List β) (keep : α → Bool) (items : List α) :
    (items.filter keep).flatMap f = items.flatMap fun a => if keep a then f a else [] := by
  induction items with
  | nil => rfl
  | cons a items ih =>
    rw [List.filter_cons, List.flatMap_cons]
    split
    · rw [List.flatMap_cons, ih]
    · rw [List.nil_append, ih]

theorem checkFile_value (p : ProjectContext) (s : Setting) (file : Path) :
    (checkFile p s file).value =
      violationsOf (p.relativePath file) (s.boundariesFor file) (importsIn p s file) := by
  unfold checkFile importsIn
  split
  · next hnone =>
    rw [hnone]
    rfl
  · split
    · next reason hreason =>
      simp [hreason, violationsOf]
    · next content hcontent =>
      rw [hcontent]
      rfl

/-- Told without its line, a crossing is the violation that the rule builds. -/
theorem map_crossingsOf (p : ProjectContext) (s : Setting) (file : Path) (b : Boundary) :
    (crossingsOf p s file b).map Prod.snd = if s.isAbout file b then
      ((importsIn p s file).filter b.isCrossedBy).map fun i =>
        b.violation (p.relativePath file) i.1
      else [] := by
  rw [crossingsOf]
  split
  · exact List.map_map ..
  · rfl

/-- The files are checked for all crossings. -/
theorem map_crossings (p : ProjectContext) (s : Setting) :
    (crossings p s).map (fun t => t.2.2.2) = (checkFiles p s p.files).value := by
  have hfile (file : Path) : (foundAt s.boundaries (crossingsOf p s file)).map
      (fun t => t.2.2) = (checkFile p s file).value := by
    rw [map_foundAt Prod.snd, checkFile_value, violationsOf, boundariesFor_eq, flatMap_filter]
    simp only [map_crossingsOf]
  rw [checkFiles_value, crossings]
  refine (map_foundAt fun t : Nat × Nat × Violation => t.2.2).trans ?_
  simp only [hfile]

/-! ### What the rule tells -/

theorem directory_folded {p : ProjectContext} {config : RuleConfig} {s : Setting}
    (hs : s.IsFor p config) : s.directory.folded = s.directory := by
  rw [hs.directory, Path.folded_folded]

theorem check_of_nothing {p : ProjectContext} {config : RuleConfig}
    (h : Declares config []) : (check p config).run.value = .ok [] := by
  rw [check_value, settingOf, boundaries_eq_ok_iff.mpr h]
  rfl

theorem check_of_isFor {p : ProjectContext} {config : RuleConfig} {s : Setting}
    (hs : s.IsFor p config) (hdirectory : p.workspace.isDirectory s.directory = true) :
    (check p config).run.value = .ok ((crossings p s).map fun t => t.2.2.2) := by
  by_cases hsome : s.boundaries = []
  -- without entries the rule stops before it looks at the directory
  · have hnone : crossings p s = [] := by
      rw [List.eq_nil_iff_forall_not_mem]
      intro t ht
      cases (mem_crossings_iff (directory_folded hs)).mp ht with
      | mk hfile hentry => simp [hsome] at hentry
    rw [hnone]
    exact check_of_nothing (hsome ▸ hs.boundaries)
  · rw [check_value, map_crossings, settingOf_eq_some_iff.mpr ⟨hs, hsome, hdirectory⟩]
    rfl

theorem check_of_malformed {p : ProjectContext} {config : RuleConfig} (h : Malformed config) :
    ∃ e, (check p config).run.value = .error e := by
  rw [check_value, settingOf]
  cases hboundaries : boundaries config with
  | error e => exact ⟨e, rfl⟩
  | ok bs => exact absurd (boundaries_eq_ok_iff.mp hboundaries) (malformed_iff.mp h bs)

theorem check_of_unread {p : ProjectContext} {config : RuleConfig} {b : Boundary}
    {bs : List Boundary} (hdeclares : Declares config (b :: bs))
    (hdirectory : p.workspace.isDirectory (analysed p config).folded = true)
    (hunread : (∀ globs, ¬ AreRead (excluded config) globs) ∨
      ∀ package, ¬ Named p.workspace config (analysed p config).folded package) :
    ∃ e, (check p config).run.value = .error e := by
  rw [check_value]
  cases hsetting : settingOf p config with
  | error e => exact ⟨e, rfl⟩
  | ok found =>
    exfalso
    rw [analysed] at hdirectory hunread
    rw [settingOf, boundaries_eq_ok_iff.mpr hdeclares] at hsetting
    simp only [hdirectory, if_true] at hsetting
    obtain ⟨excludes, hexcludes, hrest⟩ := bind_eq_ok_iff.mp hsetting
    obtain ⟨package, hpackage, -⟩ := bind_eq_ok_iff.mp hrest
    rcases hunread with hglobs | hnames
    · exact hglobs excludes (readAll_eq_ok_iff.mp hexcludes)
    · exact hnames package (packageName_eq_ok_iff.mp hpackage)

/-- **The crossings are told.**  In a directory that exists, under globs and a package name
    that can be read, the rule tells all crossings by file, entry and line, and nothing else;
    without entries it tells nothing.  It fails when an entry is malformed; when there is an
    entry, it also fails when a glob for files that are left out or the manifest cannot be
    read. -/
theorem check_tells_crossings (p : ProjectContext) (config : RuleConfig) :
    (∀ s : Setting, s.IsFor p config → p.workspace.isDirectory s.directory = true →
      ∃ told : List Told, told.Pairwise Told.Before ∧ (∀ t, t ∈ told ↔ Crossing p s t) ∧
        (check p config).run.value = .ok (told.map fun t => t.2.2.2)) ∧
      (Declares config [] → (check p config).run.value = .ok []) ∧
      (Malformed config → ∃ e, (check p config).run.value = .error e) ∧
      ∀ b bs, Declares config (b :: bs) →
        p.workspace.isDirectory (analysed p config).folded = true →
        ((∀ globs, ¬ AreRead (excluded config) globs) ∨
          ∀ package, ¬ Named p.workspace config (analysed p config).folded package) →
        ∃ e, (check p config).run.value = .error e := by
  refine ⟨?_, check_of_nothing, check_of_malformed, ?_⟩
  · intro s hs hdirectory
    refine ⟨crossings p s, crossings_increasing p s, ?_, check_of_isFor hs hdirectory⟩
    intro t
    exact mem_crossings_iff (directory_folded hs)
  · intro b bs hdeclares hdirectory hunread
    exact check_of_unread hdeclares hdirectory hunread

/-! ### A library, and a manifest that cannot be read -/

/-- Two globs of the entry accept what the file imports. -/
def libraryConfig : RuleConfig :=
  { RuleConfig.default with options :=
    [("analyze_path", .text "lib"), ("forbidden_imports", .list [.table
      [("from", .text "ui/*"), ("cannot_import", .list [.text "data/**", .text "*"]),
        ("severity", .text "warning"), ("message", .text "closed")]])] }

/-- Behind a well-formed entry stands one without a glob for its files. -/
def malformedConfig : RuleConfig :=
  { RuleConfig.default with options :=
    [("forbidden_imports", .list [.table [("from", .text "*")], .table [("from", .bool true)]])] }

/-- No file may import any other. -/
def closedConfig (options : List (String × Datum)) : RuleConfig :=
  { RuleConfig.default with options := ("forbidden_imports", .list [.table
      [("from", .text "*"), ("cannot_import", .list [.text "*"])]]) :: options }

/-- No file is left out, and the package is called what the manifest says. -/
def unreadConfig : RuleConfig := closedConfig [("exclude_patterns", .list [])]

/-- A file imports the one beside it, and the manifest is no text. -/
def unreadContext : ProjectContext where
  root := ⟨"/w"⟩
  files := [⟨"/w/a.dart"⟩]
  resolver := ⟨⟨"/w"⟩, none⟩
  workspace :=
    { tree := .directory [("w", .directory
        [("a.dart", .file (.text "import 'b.dart';\n")), ("b.dart", .file (.text "")),
          ("pubspec.yaml", .file (.bytes [0xff, 0xfe]))])]
      workingNames := ["w"]
      home := none
      settingsDirectory := none }

def closedBoundary : Boundary :=
  ⟨⟨[.anyRun]⟩, [⟨[.anyRun]⟩], .error, "Architecture violation"⟩

theorem closed_declares (options : List (String × Datum)) :
    Declares (closedConfig options) [closedBoundary] :=
  boundaries_eq_ok_iff.mp rfl

theorem malformed_without_source : Malformed malformedConfig := by
  refine ⟨_, rfl, ?_⟩
  rintro entries hentries
  obtain rfl := Datum.list.inj hentries
  refine ⟨.table [("from", .bool true)], by simp, ?_⟩
  rintro b ⟨source, draft, hread, -⟩
  cases hread

theorem manifest_unread (package : Option String) :
    ¬ Named unreadContext.workspace unreadConfig (analysed unreadContext unreadConfig).folded
      package := by
  rw [← packageName_eq_ok_iff]
  intro hread
  have hnone : (packageName unreadContext unreadConfig
      (analysed unreadContext unreadConfig).folded).run.value.toOption = none := by
    decide +kernel
  rw [hread] at hnone
  cases hnone

theorem library_setting : ∃ s, settingOf layeredContext libraryConfig = .ok (some s) := by
  have hsome : ((settingOf layeredContext libraryConfig).toOption.bind id).isSome = true := by
    decide +kernel
  obtain ⟨s, hs⟩ := Option.isSome_iff_exists.mp hsome
  cases hread : settingOf layeredContext libraryConfig with
  | error e =>
    rw [hread] at hs
    cases hs
  | ok found =>
    rw [hread] at hs
    exact ⟨s, congrArg _ hs⟩

theorem library_check : (check layeredContext libraryConfig).run.value.toOption = some
    [⟨"lib/ui/a.dart", name, .warning, "Architecture violation: lib/ui/a.dart imports " ++
        "'../data/repo.dart' - closed (line 1)", none⟩,
      ⟨"lib/ui/a.dart", name, .warning, "Architecture violation: lib/ui/a.dart imports " ++
        "'package:app/data/repo.dart' - closed (line 2)", none⟩] := by
  decide +kernel

/-- The library is searched for both spellings of one import, each of which is told once;
    without a manifest or with a malformed entry nothing is told. -/
theorem check_tells_crossings_library :
    (∃ (s : Setting) (told : List Told), s.IsFor layeredContext libraryConfig ∧
      layeredContext.workspace.isDirectory s.directory = true ∧ told.Pairwise Told.Before ∧
      (∀ t, t ∈ told ↔ Crossing layeredContext s t) ∧
      told.map (fun t => t.2.2.2) =
        [⟨"lib/ui/a.dart", name, .warning, "Architecture violation: lib/ui/a.dart imports " ++
            "'../data/repo.dart' - closed (line 1)", none⟩,
          ⟨"lib/ui/a.dart", name, .warning, "Architecture violation: lib/ui/a.dart imports " ++
            "'package:app/data/repo.dart' - closed (line 2)", none⟩]) ∧
      (check unreadContext RuleConfig.default).run.value = .ok [] ∧
      (Malformed malformedConfig ∧
        ∃ e, (check layeredContext malformedConfig).run.value = .error e) ∧
      Declares unreadConfig [closedBoundary] ∧
        ∃ e, (check unreadContext unreadConfig).run.value = .error e := by
  obtain ⟨hexact, -⟩ := check_tells_crossings layeredContext libraryConfig
  obtain ⟨-, hnothing, -⟩ := check_tells_crossings unreadContext RuleConfig.default
  obtain ⟨-, -, hmalformed, -⟩ := check_tells_crossings layeredContext malformedConfig
  obtain ⟨-, -, -, hunread⟩ := check_tells_crossings unreadContext unreadConfig
  refine ⟨?_, hnothing (.nothing rfl), ⟨malformed_without_source, ?_⟩, closed_declares _, ?_⟩
  · obtain ⟨s, hs⟩ := library_setting
    obtain ⟨hfor, -, hdirectory⟩ := settingOf_eq_some_iff.mp hs
    obtain ⟨told, hbefore, hall, hvalue⟩ := hexact s hfor hdirectory
    refine ⟨s, told, hfor, hdirectory, hbefore, hall, ?_⟩
    refine Option.some.inj (Eq.trans ?_ library_check)
    rw [hvalue]
    rfl
  · exact hmalformed malformed_without_source
  · exact hunread _ _ (closed_declares _) (by decide +kernel) (.inr manifest_unread)

/-- The import of `a.dart`. -/
def closedImport : Directive := ⟨.imports, "b.dart", 1⟩

/-- Whatever the package is called, the import crosses the boundary. -/
theorem closed_crossing (package : Option String) :
    Crossing unreadContext ⟨⟨"/w"⟩, [closedBoundary], [], package⟩
      (0, 0, 1, closedBoundary.violation "a.dart" closedImport) := by
  have hfile : (⟨"/w/a.dart"⟩ : Path).Behind ⟨"/w"⟩ ⟨"a.dart"⟩ :=
    ⟨[.name "a.dart"], by decide +kernel, by decide +kernel⟩
  have htarget : ((⟨"/w"⟩ : Path).join ⟨"b.dart"⟩).Behind ⟨"/w"⟩ ⟨"b.dart"⟩ :=
    ⟨[.name "b.dart"], by decide +kernel, by decide +kernel⟩
  have hleads : Setting.LeadsTo ⟨⟨"/w"⟩, [closedBoundary], [], package⟩ ⟨"/w/a.dart"⟩ "b.dart"
      (⟨"b.dart"⟩ : Path).slashText :=
    .relative (by decide +kernel) (by decide +kernel) htarget
  have hcovers : Setting.Covers ⟨⟨"/w"⟩, [closedBoundary], [], package⟩ ⟨"/w/a.dart"⟩
      closedBoundary := ⟨_, hfile, List.forall_mem_nil _, by decide +kernel⟩
  have hforbids : Setting.Forbids ⟨⟨"/w"⟩, [closedBoundary], [], package⟩ ⟨"/w/a.dart"⟩
      closedBoundary closedImport.uri :=
    ⟨⟨[.anyRun]⟩, List.mem_singleton_self _, .inl ⟨_, hleads, by decide +kernel⟩⟩
  have hread : unreadContext.workspace.readText (⟨"/w/a.dart"⟩ : Path).folded =
      .ok "import 'b.dart';\n" := by decide +kernel
  have himport : closedImport ∈ Directive.importsOf (⟨"/w/a.dart"⟩ : Path).folded
      "import 'b.dart';\n".toList := by decide +kernel
  have hshown : "a.dart" = unreadContext.relativePath (⟨"/w/a.dart"⟩ : Path).folded := by
    decide +kernel
  have hfirst : unreadContext.files[0]? = some ⟨"/w/a.dart"⟩ := rfl
  have hentry : [closedBoundary][0]? = some closedBoundary := rfl
  exact .mk hfirst hentry hcovers hread himport hforbids hshown

/-- Without the manifest, or with a glob for left-out files that cannot be read, the rule fails
    and does not tell the crossing. -/
theorem unread_hides_crossing :
    Declares unreadConfig [closedBoundary] ∧ AreRead (excluded unreadConfig) [] ∧
      (analysed unreadContext unreadConfig).folded = ⟨"/w"⟩ ∧
      unreadContext.workspace.isDirectory ⟨"/w"⟩ = true ∧
      (∀ package, Crossing unreadContext ⟨⟨"/w"⟩, [closedBoundary], [], package⟩
        (0, 0, 1, closedBoundary.violation "a.dart" closedImport)) ∧
      (check unreadContext unreadConfig).run.value = .error (.io ⟨"/w/pubspec.yaml"⟩ .notText) ∧
      (check unreadContext (closedConfig [("package_name", .text "app"),
        ("exclude_patterns", .list [.text "["])])).run.value.toOption = none := by
  refine ⟨closed_declares _, .nil, by decide +kernel, by decide +kernel, closed_crossing, ?_, ?_⟩
  · decide +kernel
  · decide +kernel

end ImportBoundary

end SourceAudit
