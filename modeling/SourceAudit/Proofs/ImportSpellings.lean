/-
  SourceAudit/Proofs/ImportSpellings.lean
  =======================================
  **Two spellings of one import.**

  A file of the own package can be imported by a relative URI or by a `package:` URI.  The
  first is resolved to a path below the analysed directory and the second to one below the
  library of the package, so they are the same exactly where these are the same directory
  (`SpelledTwice.agree_iff`); a backslash in a name is also taken for a slash in the first only.
  Elsewhere a boundary sees one spelling and not the other (`one_spelling_crosses`).
-/
import SourceAudit.Proofs.RelativePaths
import SourceAudit.Proofs.DartFiles
import SourceAudit.Proofs.Selection
import SourceAudit.Rule.ImportBoundary

namespace SourceAudit

/-! ### Texts of names -/

namespace Text

theorem length_joined_cons {s : String} (hs : s ≠ "") (texts : List String) :
    (joined "/" texts).length < (joined "/" (s :: texts)).length := by
  have hlength : 0 < s.length := by
    rw [Nat.pos_iff_ne_zero, Ne, String.length_eq_zero_iff]
    exact hs
  by_cases hnil : texts = []
  · subst hnil
    simpa [joined] using hlength
  · rw [joined, joined, String.intercalate_cons_of_ne_nil hnil, String.length_append,
      String.length_append]
    omega

theorem length_joined_append {more : List String} (hmore : ∀ s ∈ more, s ≠ "") (hne : more ≠ [])
    (texts : List String) : (joined "/" texts).length < (joined "/" (more ++ texts)).length := by
  induction more with
  | nil => exact absurd rfl hne
  | cons s rest ih =>
    have hs := length_joined_cons (hmore s (List.mem_cons_self ..)) (rest ++ texts)
    by_cases hnil : rest = []
    · subst hnil
      exact hs
    · exact Nat.lt_trans (ih (fun t ht => hmore t (List.mem_cons_of_mem _ ht)) hnil) hs

end Text

namespace ImportBoundary

open SourceAudit.Path (FoldedList IsPlain Leads)

/-! ### Resolving -/

/-- The path below the library that a URI of the own package names. -/
theorem resolve?_package (directory file : Path) (name rest : String) :
    resolve? directory (some name) file (DartPackage.ownStart name ++ rest) = some rest := by
  have hafter : DartPackage.afterStart? (DartPackage.ownStart name)
      (DartPackage.ownStart name ++ rest) = some rest :=
    DartPackage.afterStart?_eq_some_iff.mpr rfl
  rw [resolve?, Option.bind_some, hafter]

/-- How a relative URI with a leading dot begins. -/
def IsDotted (uri : String) : Prop :=
  "./".toList <+: uri.toList ∨ "../".toList <+: uri.toList

theorem IsDotted.head? {uri : String} (huri : IsDotted uri) : uri.toList.head? = some '.' := by
  rcases huri with ⟨rest, hrest⟩ | ⟨rest, hrest⟩ <;> rw [← hrest] <;> rfl

theorem IsDotted.isRelative {uri : String} (huri : IsDotted uri) : isRelative uri = true := by
  rw [ImportBoundary.isRelative]
  simp only [Bool.or_eq_true, List.isPrefixOf_iff_prefix]
  exact .inl huri

theorem IsDotted.not_absolute {uri : String} (huri : IsDotted uri) :
    (⟨uri⟩ : Path).isAbsolute = false := by
  rw [Path.isAbsolute, huri.head?]
  decide

theorem ownStart_toList (name rest : String) : ∃ tail,
    (DartPackage.ownStart name ++ rest).toList = 'p' :: tail ∧ ':' ∈ tail := by
  have hstart : DartPackage.ownStart name = "package:" ++ name ++ "/" := rfl
  refine ⟨"ackage:".toList ++ name.toList ++ "/".toList ++ rest.toList, ?_, by simp⟩
  simp [hstart]

theorem IsDotted.not_package {uri : String} (huri : IsDotted uri) (package : Option String) :
    (package.bind fun name => DartPackage.afterStart? (DartPackage.ownStart name) uri) = none := by
  rw [Option.bind_eq_none_iff]
  intro name _
  rw [Option.eq_none_iff_forall_not_mem]
  intro rest hrest
  obtain rfl := DartPackage.afterStart?_eq_some_iff.mp hrest
  obtain ⟨tail, htail, -⟩ := ownStart_toList name rest
  have hhead := huri.head?
  rw [htail] at hhead
  exact absurd hhead (by simp)

theorem isRelative_package (name rest : String) :
    isRelative (DartPackage.ownStart name ++ rest) = false := by
  obtain ⟨tail, htail, hcolon⟩ := ownStart_toList name rest
  rw [isRelative, htail]
  simp [hcolon, List.isPrefixOf]

/-- The directory of a folded file is folded. -/
theorem foldedList_front {directory file : Path} {front : List String} {last : String}
    (hfile : file.folded.components =
      directory.folded.components ++ (front ++ [last]).map .name) :
    FoldedList (directory.folded.components ++ front.map .name) ∧ IsPlain last := by
  have hplain : ∀ n ∈ front ++ [last], IsPlain n := by
    intro n hn
    refine (Path.foldedList_folded file).plain ?_
    rw [hfile]
    exact List.mem_append_right _ (List.mem_map_of_mem hn)
  refine ⟨(Path.foldedList_folded directory).append fun n hn => ?_, hplain last (by simp)⟩
  exact hplain n (List.mem_append_left [last] hn)

/-- A dotted URI that leads to a place below the analysed directory is resolved to its names
    there. -/
theorem resolve?_dotted {directory file : Path} (package : Option String) {uri : String}
    {front inside : List String} {last : String} (huri : IsDotted uri)
    (hfile : file.folded.components =
      directory.folded.components ++ (front ++ [last]).map .name)
    (hleads : Leads (directory.folded.components ++ front.map .name) (⟨uri⟩ : Path).segments
      (directory.folded.components ++ inside.map .name)) :
    resolve? directory.folded package file.folded uri =
      some (Path.ofSegments inside).slashText := by
  obtain ⟨hfront, hlast⟩ := foldedList_front hfile
  have hcomponents := Path.components_ofComponents hfront
  have hparent : file.folded.parent? =
      some (Path.ofComponents (directory.folded.components ++ front.map .name)) := by
    rw [← Path.ofComponents_folded file, hfile, List.map_append, ← List.append_assoc]
    exact Path.parent?_ofComponents hfront hlast
  have hjoin : ((Path.ofComponents (directory.folded.components ++ front.map .name)).join
      ⟨uri⟩).folded = Path.ofComponents (directory.folded.components ++ inside.map .name) := by
    apply Path.folded_join
    · rw [hcomponents]
      exact hfront
    · exact huri.not_absolute
    · rw [hcomponents]
      exact hleads
  have hinside : ∀ n ∈ inside, IsPlain n := by
    intro n hn
    refine (hfront.leads hleads).plain ?_
    exact List.mem_append_right _ (List.mem_map_of_mem hn)
  rw [resolve?, huri.not_package, hparent]
  simp only [huri.isRelative, if_true, Option.bind_eq_bind, Option.bind_some]
  rw [hjoin, Path.relativeTo?_ofComponents (Path.foldedList_folded directory) hinside,
    Option.map_some]

/-! ### The same path -/

theorem length_slashText (p : Path) : p.slashText.length = p.text.length := by
  rw [Path.slashText, ← String.length_toList, String.toList_ofList, Text.forwardSlashes,
    List.length_map, String.length_toList]

theorem slashText_eq_text_iff {p : Path} : p.slashText = p.text ↔ '\\' ∉ p.text.toList := by
  rw [Path.slashText, ← String.toList_inj, String.toList_ofList, Text.forwardSlashes_eq_self_iff]

theorem names_inj {names more : List String}
    (hsame : names.map Path.Component.name = more.map .name) : names = more :=
  (List.map_inj_right fun _ _ h => Path.Component.name.inj h).mp hsame

/-- Plain names in front make the text of a list of names longer. -/
theorem eq_nil_of_text {extra names : List String} (hplain : ∀ n ∈ extra, IsPlain n)
    (htext : (Path.ofSegments (extra ++ names)).text.length = (Path.ofSegments names).text.length) :
    extra = [] := by
  rcases List.eq_nil_or_concat extra with hnil | hcons
  · exact hnil
  · have hne : extra ≠ [] := by
      obtain ⟨front, last, rfl⟩ := hcons
      simp
    have hempty : ∀ n ∈ extra, n ≠ "" := by
      rintro n hn rfl
      exact absurd (hplain "" hn).1 (by decide)
    exact absurd htext (Nat.ne_of_gt (Text.length_joined_append hempty hne names))

/-- Names behind two lists that are one place have texts of one length only if the lists are
    the same. -/
theorem base_eq_of_text {base other : List Path.Component} {names more : List String}
    (hnames : ∀ n ∈ names, IsPlain n) (hmore : ∀ n ∈ more, IsPlain n)
    (hplace : base ++ names.map .name = other ++ more.map .name)
    (htext : (Path.ofSegments names).text.length = (Path.ofSegments more).text.length) :
    base = other := by
  rcases List.append_eq_append_iff.mp hplace with ⟨extra, rfl, hcut⟩ | ⟨extra, rfl, hcut⟩
  · obtain ⟨front, tail, rfl, rfl, htail⟩ := List.map_eq_append_iff.mp hcut
    obtain rfl := names_inj htail
    rw [eq_nil_of_text (fun n hn => hnames n (List.mem_append_left _ hn)) htext,
      List.map_nil, List.append_nil]
  · obtain ⟨front, tail, rfl, rfl, htail⟩ := List.map_eq_append_iff.mp hcut
    obtain rfl := names_inj htail
    rw [eq_nil_of_text (fun n hn => hmore n (List.mem_append_left _ hn)) htext.symm,
      List.map_nil, List.append_nil]

/-! ### The two spellings -/

/-- The `package:` URI of a file of the library, by its names there. -/
def packageUri (name : String) (own : List String) : String :=
  DartPackage.ownStart name ++ (Path.ofSegments own).text

/-- In a file of the analysed directory, a dotted URI leads to a file that lies there under the
    names `inside` and in the library of the package under the names `own`. -/
structure SpelledTwice (package directory file : Path) (uri : String)
    (inside own : List String) : Prop where
  dotted : IsDotted uri
  leads : ∃ front last,
    file.folded.components = directory.folded.components ++ (front ++ [last]).map .name ∧
      Leads (directory.folded.components ++ front.map .name) (⟨uri⟩ : Path).segments
        (directory.folded.components ++ inside.map .name)
  place : directory.folded.components ++ inside.map .name =
    (package.child "lib").folded.components ++ own.map .name

namespace SpelledTwice

variable {package directory file : Path} {name uri : String} {inside own : List String}

theorem resolve?_uri (h : SpelledTwice package directory file uri inside own)
    (name : Option String) : resolve? directory.folded name file.folded uri =
      some (Path.ofSegments inside).slashText := by
  obtain ⟨front, last, hfile, hleads⟩ := h.leads
  exact resolve?_dotted name h.dotted hfile hleads

theorem plain (h : SpelledTwice package directory file uri inside own) :
    (∀ n ∈ inside, IsPlain n) ∧ ∀ n ∈ own, IsPlain n := by
  obtain ⟨front, last, hfile, hleads⟩ := h.leads
  have hplace := (foldedList_front hfile).1.leads hleads
  refine ⟨fun n hn => hplace.plain ?_, fun n hn => hplace.plain ?_⟩
  · exact List.mem_append_right _ (List.mem_map_of_mem hn)
  · rw [h.place]
    exact List.mem_append_right _ (List.mem_map_of_mem hn)

/-- The paths are the same exactly where the directory is the library, for a file without
    backslashes. -/
theorem agree_iff (h : SpelledTwice package directory file uri inside own) (name : String) :
    resolve? directory.folded (some name) file.folded uri =
        resolve? directory.folded (some name) file.folded (packageUri name own) ↔
      directory.folded.components = (package.child "lib").folded.components ∧
        '\\' ∉ (Path.ofSegments own).text.toList := by
  obtain ⟨hinside, hown⟩ := h.plain
  rw [h.resolve?_uri, packageUri, resolve?_package, Option.some.injEq]
  constructor
  · intro hsame
    have hlength : (Path.ofSegments inside).text.length = (Path.ofSegments own).text.length := by
      rw [← length_slashText, hsame]
    have hbase := base_eq_of_text hinside hown h.place hlength
    have hplace := h.place
    rw [hbase, List.append_cancel_left_eq] at hplace
    obtain rfl := names_inj hplace
    exact ⟨hbase, slashText_eq_text_iff.mp hsame⟩
  · rintro ⟨hbase, hslashes⟩
    have hplace := h.place
    rw [hbase, List.append_cancel_left_eq] at hplace
    obtain rfl := names_inj hplace
    exact slashText_eq_text_iff.mpr hslashes

end SpelledTwice

theorem isCrossedBy_some (b : Boundary) (i : Directive) (path : String) :
    b.isCrossedBy (i, some path) = (b.targets.any (PatternOption.accepts · path) ||
      (!isRelative i.uri && b.targets.any (PatternOption.accepts · i.uri))) := by
  rw [Boundary.isCrossedBy, Bool.eq_iff_iff]
  cases isRelative i.uri with
  | true => simp
  | false => simp [and_or_left, exists_or]

/-- **Two spellings of one import.** -/
theorem spellings_agree_iff {package directory file : Path} {uri : String}
    {inside own : List String} (h : SpelledTwice package directory file uri inside own)
    (name : String) :
    resolve? directory.folded (some name) file.folded uri =
        some (Path.ofSegments inside).slashText ∧
      resolve? directory.folded (some name) file.folded (packageUri name own) =
        some (Path.ofSegments own).text ∧
      (resolve? directory.folded (some name) file.folded uri =
          resolve? directory.folded (some name) file.folded (packageUri name own) ↔
        directory.folded.components = (package.child "lib").folded.components ∧
          '\\' ∉ (Path.ofSegments own).text.toList) ∧
      (directory.folded.components = (package.child "lib").folded.components →
        '\\' ∉ (Path.ofSegments own).text.toList →
        ∀ (b : Boundary) (i j : Directive), i.uri = uri → j.uri = packageUri name own →
          b.isCrossedBy (j, resolve? directory.folded (some name) file.folded j.uri) =
            (b.isCrossedBy (i, resolve? directory.folded (some name) file.folded i.uri) ||
              b.targets.any (PatternOption.accepts · j.uri))) := by
  refine ⟨h.resolve?_uri _, resolve?_package .., h.agree_iff name, ?_⟩
  rintro hbase hslashes b i j rfl hj
  have hsame := (h.agree_iff name).mpr ⟨hbase, hslashes⟩
  have hpackage : isRelative j.uri = false := hj ▸ isRelative_package ..
  rw [hsame, hj, packageUri, resolve?_package, isCrossedBy_some, isCrossedBy_some,
    h.dotted.isRelative, hpackage, hj, packageUri]
  simp

/-! ### A package that is analysed from its root -/

/-- A file imports another one in both spellings. -/
def layeredWorkspace : Workspace where
  tree := .directory [("w", .directory
    [("lib", .directory
        [("data", .directory [("repo.dart", .file (.text ""))]),
         ("ui", .directory [("a.dart", .file (.text
            "import '../data/repo.dart';\nimport 'package:app/data/repo.dart';\n"))])]),
     ("pubspec.yaml", .file (.text "name: app\n"))])]
  workingNames := ["w"]
  home := none
  settingsDirectory := none

/-- Below `lib/ui` nothing of `lib/data` may be imported. -/
def layeredConfig : RuleConfig :=
  { RuleConfig.default with options :=
    [("forbidden_imports", .list [.table
      [("from", .text "lib/ui/**"), ("cannot_import", .list [.text "lib/data/**"])]])] }

def layeredContext : ProjectContext :=
  ⟨⟨"/w"⟩, [⟨"/w/lib/ui/a.dart"⟩], ⟨⟨"/w"⟩, none⟩, layeredWorkspace⟩

theorem layered_from_library : SpelledTwice ⟨"/w"⟩ ⟨"/w/lib"⟩ ⟨"/w/lib/ui/a.dart"⟩
    "../data/repo.dart" ["data", "repo.dart"] ["data", "repo.dart"] where
  dotted := .inr (by decide)
  leads := by
    have hdirectory : (⟨"/w/lib"⟩ : Path).folded.components = [.root, .name "w", .name "lib"] := by
      decide +kernel
    have hsegments : (⟨"../data/repo.dart"⟩ : Path).segments = ["..", "data", "repo.dart"] := by
      decide +kernel
    refine ⟨["ui"], "a.dart", by decide +kernel, ?_⟩
    rw [hdirectory, hsegments]
    exact Leads.across [.root, .name "w", .name "lib"] ["ui"] (by decide)
  place := by decide +kernel

theorem layered_from_root : SpelledTwice ⟨"/w"⟩ ⟨"/w"⟩ ⟨"/w/lib/ui/a.dart"⟩
    "../data/repo.dart" ["lib", "data", "repo.dart"] ["data", "repo.dart"] where
  dotted := .inr (by decide)
  leads := by
    have hdirectory : (⟨"/w"⟩ : Path).folded.components = [.root, .name "w"] := by decide +kernel
    have hsegments : (⟨"../data/repo.dart"⟩ : Path).segments = ["..", "data", "repo.dart"] := by
      decide +kernel
    refine ⟨["lib", "ui"], "a.dart", by decide +kernel, ?_⟩
    rw [hdirectory, hsegments]
    exact Leads.across [.root, .name "w", .name "lib"] ["ui"] (by decide)
  place := by decide +kernel

/-- Nothing below `data` may be imported. -/
def dataBoundary : Boundary where
  source := ⟨[.anySegments]⟩
  targets := [⟨"data/".toList.map .literal ++ [.anySegments]⟩]
  severity := .error
  message := "closed"

/-- From the library both spellings are one path, and a boundary for it sees both. -/
theorem spellings_agree_iff_layered :
    SpelledTwice ⟨"/w"⟩ ⟨"/w/lib"⟩ ⟨"/w/lib/ui/a.dart"⟩ "../data/repo.dart"
        ["data", "repo.dart"] ["data", "repo.dart"] ∧
      resolve? (⟨"/w/lib"⟩ : Path).folded (some "app") (⟨"/w/lib/ui/a.dart"⟩ : Path).folded
          "../data/repo.dart" =
        resolve? (⟨"/w/lib"⟩ : Path).folded (some "app") (⟨"/w/lib/ui/a.dart"⟩ : Path).folded
          (packageUri "app" ["data", "repo.dart"]) ∧
      dataBoundary.isCrossedBy (⟨.imports, packageUri "app" ["data", "repo.dart"], 2⟩,
        resolve? (⟨"/w/lib"⟩ : Path).folded (some "app") (⟨"/w/lib/ui/a.dart"⟩ : Path).folded
          (packageUri "app" ["data", "repo.dart"])) = true := by
  obtain ⟨-, -, hsame, hcrossed⟩ := spellings_agree_iff layered_from_library "app"
  refine ⟨layered_from_library, hsame.mpr (by decide +kernel), ?_⟩
  refine (hcrossed (by decide +kernel) (by decide +kernel) dataBoundary
    ⟨.imports, "../data/repo.dart", 1⟩ ⟨.imports, _, 2⟩ rfl rfl).trans ?_
  decide +kernel

/-- From the root of the package a boundary sees one spelling only. -/
theorem one_spelling_crosses :
    SpelledTwice ⟨"/w"⟩ ⟨"/w"⟩ ⟨"/w/lib/ui/a.dart"⟩ "../data/repo.dart"
        ["lib", "data", "repo.dart"] ["data", "repo.dart"] ∧
      resolve? (⟨"/w"⟩ : Path).folded (some "app") (⟨"/w/lib/ui/a.dart"⟩ : Path).folded
          "../data/repo.dart" = some "lib/data/repo.dart" ∧
      resolve? (⟨"/w"⟩ : Path).folded (some "app") (⟨"/w/lib/ui/a.dart"⟩ : Path).folded
          (packageUri "app" ["data", "repo.dart"]) = some "data/repo.dart" ∧
      (check layeredContext layeredConfig).run.value.toOption = some
        [⟨"lib/ui/a.dart", name, .error, "Architecture violation: lib/ui/a.dart imports " ++
          "'../data/repo.dart' - Architecture violation (line 1)", none⟩] := by
  refine ⟨layered_from_root, by decide +kernel, by decide +kernel, ?_⟩
  decide +kernel

end ImportBoundary

end SourceAudit
