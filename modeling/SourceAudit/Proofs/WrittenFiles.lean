/-
  SourceAudit/Proofs/WrittenFiles.lean
  ====================================
  **What was written can be read.**

  A file put into a tree leaves every directory a directory with all its names
  (`FileTree.directory_put`), so the steps of a path that led somewhere lead there still
  (`FileTree.steps_put`).  A text written to a path that ends with a name goes to where the
  segments before the name lead (`Workspace.steps_of_placeFor`): reading the path gives the
  text back (`Workspace.readText_of_writeText`).
-/
import SourceAudit.Proofs.PlainPaths
import SourceAudit.Proofs.Records
import SourceAudit.Proofs.Strictness

namespace SourceAudit

theorem Entries.lookup_put {α : Type} (name : String) (value : α)
    (entries : List (String × α)) (other : String) :
    (Entries.put name value entries).lookup other =
      if other = name then some value else entries.lookup other := by
  induction entries with
  | nil =>
    rw [Entries.put, List.lookup_cons, List.lookup_nil]
    by_cases hother : other = name
    · simp [hother]
    · rw [beq_false_of_ne hother, if_neg hother]
  | cons e rest ih =>
    obtain ⟨n, v⟩ := e
    rw [Entries.put]
    by_cases hsame : n = name
    · subst hsame
      rw [if_pos rfl, List.lookup_cons, List.lookup_cons]
      by_cases hother : other = n
      · simp [hother]
      · rw [beq_false_of_ne hother, if_neg hother]
    · rw [if_neg hsame, List.lookup_cons, ih, List.lookup_cons]
      by_cases hother : other = n
      · simp [hother, hsame]
      · rw [beq_false_of_ne hother]

/-! ### The path around a path -/

namespace Path

/-- The segments that `dropSilentEnd` takes away are silent. -/
theorem dropSilentEnd_append (segments : List String) :
    ∃ silent, segments = dropSilentEnd segments ++ silent ∧ ∀ s ∈ silent, isSilent s = true := by
  refine ⟨(segments.reverse.takeWhile isSilent).reverse, ?_, ?_⟩
  · rw [dropSilentEnd, ← List.reverse_append, List.takeWhile_append_dropWhile,
      List.reverse_reverse]
  · intro s hs
    exact List.all_eq_true.mp List.all_takeWhile s (List.mem_reverse.mp hs)

theorem dropSilentEnd_concat {name : String} (hname : isSilent name = false)
    (front : List String) : dropSilentEnd (front ++ [name]) = front ++ [name] := by
  simp [dropSilentEnd, hname]

theorem text_ne_empty {p : Path} (hp : p.isAbsolute = true ∨ ∃ s, s ≠ "" ∧ s ∈ p.segments) :
    p.text ≠ "" := by
  obtain ⟨text⟩ := p
  rintro rfl
  rcases hp with hp | ⟨s, hs, hmem⟩
  · exact absurd hp (by decide)
  · exact hs (List.mem_singleton.mp hmem)

/-- The path around one that has the segments `front` before its last one: the text has these
    segments, but for silent ones at the end. -/
inductive LiesAround (front : List String) (absolute : Bool) (around : Path) : Prop
  | nothing (hfront : front = []) (htext : around.text = "")
  | segments (kept silent more : List String) (htext : around.text ≠ "")
      (habsolute : around.isAbsolute = absolute) (hfront : front = kept ++ silent)
      (hsegments : around.segments = kept ++ more)
      (hsilent : ∀ s ∈ silent ++ more, isSilent s = true)

/-- Behind a root or a leading dot the segments are cut for themselves. -/
theorem LiesAround.withHead {absolute : Bool} {head : String} {rest : List String}
    (hhead : head = if absolute then "" else ".") (hrest : ∀ s ∈ rest, '/' ∉ s.toList) :
    LiesAround (head :: rest) absolute (withHead absolute head (dropSilentEnd rest)) := by
  obtain ⟨silent, hcut, hsilent⟩ := dropSilentEnd_append rest
  generalize dropSilentEnd rest = body at hcut
  subst hcut hhead
  cases body with
  | nil =>
    cases absolute with
    | true =>
      refine .segments [""] silent [""] (by decide) rfl rfl rfl ?_
      intro s hs
      rcases List.mem_append.mp hs with hs | hs
      · exact hsilent s hs
      · rw [List.mem_singleton.mp hs]
        rfl
    | false =>
      exact .segments ["."] silent [] (by decide) rfl rfl rfl
        (by simpa using hsilent)
  | cons s body =>
    have hslash : ∀ t ∈ (if absolute then "" else ".") :: s :: body, '/' ∉ t.toList := by
      intro t ht
      rcases List.mem_cons.mp ht with rfl | ht
      · cases absolute <;> decide
      · exact hrest t (List.mem_append_left silent ht)
    have hsegments := segments_ofSegments (List.cons_ne_nil _ _) hslash
    have habsolute : (ofSegments ((if absolute then "" else ".") :: s :: body)).isAbsolute =
        absolute := by
      cases absolute with
      | true => exact isAbsolute_of_segments hsegments (List.cons_ne_nil _ _)
      | false => exact not_absolute_of_segments hsegments (by decide)
    refine .segments _ silent [] (text_ne_empty ?_) habsolute
      (List.cons_append ..).symm (hsegments.trans (List.append_nil _).symm) (by simpa using hsilent)
    cases absolute with
    | true => exact .inl habsolute
    | false => exact .inr ⟨".", by decide, hsegments ▸ List.mem_cons_self ..⟩

/-- Without such a head all segments are cut together. -/
theorem LiesAround.plain {first : String} {rest : List String} (hempty : first ≠ "")
    (hhere : first ≠ ".") (hslash : ∀ s ∈ first :: rest, '/' ∉ s.toList) :
    LiesAround (first :: rest) false (ofSegments (dropSilentEnd (first :: rest))) := by
  obtain ⟨silent, hcut, hsilent⟩ := dropSilentEnd_append (first :: rest)
  cases hkept : dropSilentEnd (first :: rest) with
  | nil =>
    rw [hkept, List.nil_append] at hcut
    have hfirst : isSilent first = true := hsilent first (hcut ▸ List.mem_cons_self ..)
    simp [isSilent, hempty, hhere] at hfirst
  | cons s body =>
    rw [hkept] at hcut
    obtain ⟨rfl, -⟩ := List.cons.inj hcut
    have hsegments := segments_ofSegments (List.cons_ne_nil first body) fun t ht =>
      hslash t (hcut ▸ List.mem_append_left silent ht)
    have hmem : first ∈ (ofSegments (first :: body)).segments := by
      rw [hsegments]
      exact List.mem_cons_self ..
    exact .segments _ silent [] (text_ne_empty (.inr ⟨first, hempty, hmem⟩))
      (not_absolute_of_segments hsegments hempty) hcut
      (hsegments.trans (List.append_nil _).symm) (by simpa using hsilent)

/-- What lies around a path that ends with a name. -/
theorem parent?_of_segments {p : Path} {front : List String} {name : String}
    (hname : IsPlain name) (hp : p.segments = front ++ [name]) :
    ∃ around, p.parent? = some around ∧ LiesAround front p.isAbsolute around := by
  have hkept := dropSilentEnd_concat hname.1
  have hslash : ∀ s ∈ front, '/' ∉ s.toList := fun s hs =>
    not_mem_segment (hp ▸ List.mem_append_left _ hs)
  cases front with
  | nil =>
    have hrelative := not_absolute_of_segments hp hname.ne_empty
    have halone : dropSilentEnd [name] = [name] := hkept []
    refine ⟨⟨""⟩, ?_, .nothing rfl rfl⟩
    simp only [parent?, hp, List.nil_append, hrelative, hname.ne_here, halone,
      Bool.false_eq_true, if_false]
    rfl
  | cons first rest =>
    have hrest : ∀ s ∈ rest, '/' ∉ s.toList := fun s hs => hslash s (List.mem_cons_of_mem _ hs)
    obtain ⟨next, others, hnext⟩ := List.exists_cons_of_ne_nil (l := rest ++ [name]) (by simp)
    have hbehind := hkept rest
    rw [hnext] at hbehind
    cases habsolute : p.isAbsolute with
    | true =>
      obtain rfl : first = "" := by
        by_contra hfirst
        rw [not_absolute_of_segments hp hfirst] at habsolute
        cases habsolute
      refine ⟨_, ?_, .withHead rfl hrest⟩
      simp only [parent?, hp, habsolute, List.cons_append, if_true, hnext, hbehind]
      rw [← hnext, List.dropLast_concat]
    | false =>
      by_cases hhere : first = "."
      · subst hhere
        refine ⟨_, ?_, .withHead rfl hrest⟩
        simp only [parent?, hp, habsolute, List.cons_append, if_true, Bool.false_eq_true, if_false,
          hnext, hbehind]
        rw [← hnext, List.dropLast_concat]
      · have hempty : first ≠ "" := by
          rintro rfl
          rw [isAbsolute_of_segments hp (by simp)] at habsolute
          cases habsolute
        refine ⟨_, ?_, .plain hempty hhere hslash⟩
        have hall : dropSilentEnd (first :: (rest ++ [name])) = first :: (rest ++ [name]) :=
          hkept (first :: rest)
        simp only [parent?, hp, habsolute, List.cons_append, if_neg hhere, Bool.false_eq_true,
          if_false, hall]
        rw [← List.cons_append, List.dropLast_concat]

end Path

/-! ### Files put into a tree -/

namespace FileTree

theorem at?_put (value : FileTree) (names : List String) (tree : FileTree) :
    (put value names tree).at? names = some value := by
  induction names generalizing tree with
  | nil => rfl
  | cons name rest ih =>
    have hentry : FileTree.entry? (put value (name :: rest) tree) name =
        some (put value rest ((tree.entry? name).getD empty)) := by
      rw [put, FileTree.entry?, FileTree.entries, Entries.lookup_put, if_pos rfl]
    rw [at?, hentry, Option.bind_some, ih]

/-- A directory stays one and keeps its names when something is put at a place where no
    directory is. -/
theorem directory_put {tree : FileTree} {place names : List String}
    {entries : List (String × FileTree)} (value : FileTree)
    (hplace : ∀ es, tree.at? place ≠ some (.directory es))
    (hat : tree.at? names = some (.directory entries)) :
    ∃ kept, (put value place tree).at? names = some (.directory kept) ∧
      ∀ name, (entries.lookup name).isSome = true → (kept.lookup name).isSome = true := by
  induction place generalizing tree names with
  | nil =>
    cases names with
    | nil => exact absurd hat (hplace entries)
    | cons n more =>
      obtain ⟨es, rfl, -⟩ := directory_of_entry hat
      exact absurd rfl (hplace es)
  | cons step rest ih =>
    cases names with
    | nil =>
      obtain rfl : tree = .directory entries := Option.some.inj hat
      refine ⟨_, rfl, fun name hname => ?_⟩
      rw [Entries.lookup_put]
      split
      · rfl
      · exact hname
    | cons n more =>
      obtain ⟨es, rfl, -⟩ := directory_of_entry hat
      rw [at?, Option.bind_eq_some_iff] at hat
      obtain ⟨inner, hinner, hat⟩ := hat
      have hentry : FileTree.entry? (put value (step :: rest) (.directory es)) n =
          if n = step then some (put value rest ((FileTree.entry? (.directory es) step).getD empty))
          else some inner := by
        rw [← hinner, put, FileTree.entry?, FileTree.entries, Entries.lookup_put]
        rfl
      rw [at?, hentry]
      by_cases hsame : n = step
      · subst hsame
        rw [if_pos rfl, hinner, Option.getD_some, Option.bind_some]
        refine ih (fun below hbelow => ?_) hat
        refine hplace below ?_
        rw [at?, hinner, Option.bind_some, hbelow]
      · rw [if_neg hsame, Option.bind_some]
        exact ⟨entries, hat, fun _ hname => hname⟩

/-- Steps lead where they led before something was put elsewhere. -/
theorem steps_put {tree : FileTree} {place names found segments : List String} (value : FileTree)
    (hplace : ∀ es, tree.at? place ≠ some (.directory es))
    (hsteps : segments.foldlM (resolveStep tree) names = .ok found) :
    segments.foldlM (resolveStep (put value place tree)) names = .ok found := by
  induction segments generalizing names with
  | nil => exact hsteps
  | cons segment rest ih =>
    obtain ⟨next, hstep, hrest⟩ := steps_cons_iff.mp hsteps
    obtain ⟨entries, hat, -⟩ := resolveStep_cases hstep
    obtain ⟨kept, hkept, hnames⟩ := directory_put value hplace hat
    have hstep' : resolveStep (put value place tree) names segment = .ok next := by
      simp only [resolveStep, hat] at hstep
      simp only [resolveStep, hkept]
      split at hstep
      · next hsilent => rw [if_pos hsilent, hstep]
      · next hsilent =>
        rw [if_neg hsilent]
        split at hstep
        · next hup => rw [if_pos hup, hstep]
        · next hup =>
          rw [if_neg hup]
          split at hstep
          · next hentry => rw [if_pos (hnames _ hentry), hstep]
          · cases hstep
    exact steps_cons_iff.mpr ⟨next, hstep', ih hrest⟩

/-- Silent steps lead nowhere else. -/
theorem steps_silent {tree : FileTree} {names found segments : List String}
    (hsilent : ∀ s ∈ segments, Path.isSilent s = true)
    (hsteps : segments.foldlM (resolveStep tree) names = .ok found) : found = names := by
  induction segments generalizing names with
  | nil => exact (Except.ok.inj hsteps).symm
  | cons segment rest ih =>
    obtain ⟨next, hstep, hrest⟩ := steps_cons_iff.mp hsteps
    obtain ⟨entries, hat, -⟩ := resolveStep_cases hstep
    simp only [resolveStep, hat, hsilent segment (List.mem_cons_self ..), if_true] at hstep
    obtain rfl := Except.ok.inj hstep
    exact ih (fun s hs => hsilent s (List.mem_cons_of_mem _ hs)) hrest

/-- In a directory silent steps can be taken. -/
theorem steps_stay {tree : FileTree} {names segments : List String}
    {entries : List (String × FileTree)} (hat : tree.at? names = some (.directory entries))
    (hsilent : ∀ s ∈ segments, Path.isSilent s = true) :
    segments.foldlM (resolveStep tree) names = .ok names := by
  induction segments with
  | nil => rfl
  | cons segment rest ih =>
    have hstep : resolveStep tree names segment = .ok names := by
      simp only [resolveStep, hat, hsilent segment (List.mem_cons_self ..), if_true]
    rw [List.foldlM_cons, hstep]
    exact ih fun s hs => hsilent s (List.mem_cons_of_mem _ hs)

theorem steps_from_file {tree : FileTree} {names segments : List String} {content : Content}
    (hat : tree.at? names = some (.file content)) (hne : segments ≠ []) :
    segments.foldlM (resolveStep tree) names = .error .notADirectory := by
  obtain ⟨segment, rest, rfl⟩ := List.exists_cons_of_ne_nil hne
  have hstep : resolveStep tree names segment = .error .notADirectory := by
    rw [resolveStep, hat]
  rw [List.foldlM_cons, hstep]
  rfl

/-- A plain segment leads to the entry with its name. -/
theorem eq_of_step_plain {tree : FileTree} {names found : List String} {name : String}
    (hname : Path.IsPlain name) (hstep : resolveStep tree names name = .ok found) :
    found = names ++ [name] := by
  obtain ⟨entries, hat, -⟩ := resolveStep_cases hstep
  simp only [resolveStep, hat, hname.1, hname.2.1, Bool.false_eq_true, if_false] at hstep
  split at hstep
  · exact (Except.ok.inj hstep).symm
  · cases hstep

theorem step_into {tree inner : FileTree} {names : List String} {name : String}
    (hname : Path.IsPlain name) (hat : tree.at? (names ++ [name]) = some inner) :
    resolveStep tree names name = .ok (names ++ [name]) := by
  have hsteps := steps_into (by simpa using hname) hat
  simp only [List.foldlM_cons, List.foldlM_nil, bind_pure] at hsteps
  exact hsteps

end FileTree

/-! ### Texts written to a path -/

namespace Workspace

open FileTree (resolveStep)

variable {w : Workspace} {p : Path} {front names : List String} {name : String}

/-- A path that ends with a name leads to that name behind what is before it. -/
theorem resolve_of_segments (hname : Path.IsPlain name) (hp : p.segments = front ++ [name]) :
    w.resolve p =
      (front.foldlM (resolveStep w.tree) (if p.isAbsolute then [] else w.workingNames)).bind
        fun directory => resolveStep w.tree directory name := by
  have hmem : name ∈ p.segments := by simp [hp]
  have hfull : p.text.isEmpty = false := by
    rw [← Bool.not_eq_true, String.isEmpty_iff]
    exact Path.text_ne_empty (.inr ⟨name, hname.ne_empty, hmem⟩)
  rw [resolve, FileTree.resolve, hfull, hp, List.foldlM_append]
  simp only [Bool.false_eq_true, if_false, List.foldlM_cons, List.foldlM_nil, bind_pure]
  rfl

/-- What the path around leads to, the segments before the name lead to as well, unless that
    is a file. -/
theorem steps_of_liesAround {around : Path} {directory : List String}
    (haround : Path.LiesAround front p.isAbsolute around) (hname : Path.IsPlain name)
    (hp : p.segments = front ++ [name]) (hmissing : w.resolve p = .error .notFound)
    (hfound : (if around.text.isEmpty then .ok w.workingNames else w.resolve around) =
      .ok directory) :
    front.foldlM (resolveStep w.tree) (if p.isAbsolute then [] else w.workingNames) =
      .ok directory := by
  rw [resolve_of_segments hname hp] at hmissing
  cases haround with
  | nothing hfront htext =>
    subst hfront
    rw [Path.not_absolute_of_segments hp hname.ne_empty]
    rw [htext] at hfound
    exact hfound
  | segments kept silent more htext habsolute hfront hsegments hsilent =>
    have hfull : around.text.isEmpty = false := by
      rw [← Bool.not_eq_true, String.isEmpty_iff]
      exact htext
    rw [hfull, if_neg Bool.false_ne_true, resolve, FileTree.resolve, hfull,
      if_neg Bool.false_ne_true, habsolute] at hfound
    obtain ⟨tree, htree⟩ := Option.isSome_iff_exists.mp
      (FileTree.isSome_of_steps hfound (Path.segments_ne_nil around))
    rw [hsegments, FileTree.steps_append_iff] at hfound
    obtain ⟨place, hplace, hmore⟩ := hfound
    obtain ⟨hfirst, hsecond⟩ := List.forall_mem_append.mp hsilent
    obtain rfl : directory = place := FileTree.steps_silent hsecond hmore
    rw [hfront, FileTree.steps_append_iff]
    refine ⟨directory, hplace, ?_⟩
    cases tree with
    | directory entries => exact FileTree.steps_stay htree hfirst
    | file content =>
      by_cases hnone : silent = []
      · rw [hnone]
        rfl
      · -- a file has no steps, and the path would not just be missing
        have hstuck := FileTree.steps_from_file htree hnone
        rw [hfront, List.foldlM_append, hplace] at hmissing
        change (silent.foldlM (resolveStep w.tree) directory).bind _ = _ at hmissing
        rw [hstuck] at hmissing
        cases hmissing

/-- A text goes to the name where the segments before it lead, and to no directory. -/
theorem steps_of_placeFor (hname : Path.IsPlain name) (hp : p.segments = front ++ [name])
    (hplace : w.placeFor p = .ok names) :
    ∃ directory, names = directory ++ [name] ∧
      front.foldlM (resolveStep w.tree) (if p.isAbsolute then [] else w.workingNames) =
        .ok directory ∧ ∀ es, w.tree.at? names ≠ some (.directory es) := by
  have hresolved := resolve_of_segments (w := w) hname hp
  cases hresolve : w.resolve p with
  | ok found =>
    simp only [placeFor, hresolve] at hplace
    rw [hresolve] at hresolved
    obtain ⟨directory, hdirectory, hstep⟩ := bind_eq_ok_iff.mp hresolved.symm
    obtain rfl := FileTree.eq_of_step_plain hname hstep
    split at hplace
    · cases hplace
    · next hother =>
      obtain rfl := Except.ok.inj hplace
      exact ⟨directory, rfl, hdirectory, hother⟩
  | error e =>
    obtain ⟨around, hparent, haround⟩ := Path.parent?_of_segments hname hp
    have hfile : p.fileName? = some name :=
      Path.fileName?_eq_some_iff.mpr (Path.components_getLast?_of_segments hname (by simp [hp]))
    simp only [placeFor, hresolve, hparent, hfile] at hplace
    cases e with
    | notFound =>
      cases hfound : (if around.text.isEmpty then .ok w.workingNames else w.resolve around) with
      | error e =>
        simp only [hfound] at hplace
        cases hplace
      | ok directory =>
        simp only [hfound] at hplace
        obtain rfl := Except.ok.inj hplace
        have hsteps := steps_of_liesAround haround hname hp hresolve hfound
        refine ⟨directory, rfl, hsteps, fun es hat => ?_⟩
        rw [hresolve, hsteps, Except.bind, FileTree.step_into hname hat] at hresolved
        cases hresolved
    | _ => cases hplace

/-- A text that is read is what lies where the path leads. -/
theorem readText_eq_ok_iff {text : String} :
    w.readText p = .ok text ↔
      ∃ names, w.resolve p = .ok names ∧ w.tree.at? names = some (.file (.text text)) := by
  unfold readText
  rw [bind_eq_ok_iff]
  refine exists_congr fun names => and_congr_right fun _ => ?_
  rcases w.tree.at? names with _ | (text | raw) | entries <;> simp

/-- **Writing and reading.**  A text that was written to a path with a name at its end is
    read back from it. -/
theorem readText_of_writeText {written : Workspace} {text : String} (hname : Path.IsPlain name)
    (hlast : p.segments.getLast? = some name) (hwritten : w.writeText p text = .ok written) :
    written.readText p = .ok text := by
  obtain ⟨front, hp⟩ := List.getLast?_eq_some_iff.mp hlast
  rw [writeText_eq] at hwritten
  cases hplace : w.placeFor p with
  | error e =>
    rw [hplace] at hwritten
    cases hwritten
  | ok names =>
    rw [hplace] at hwritten
    obtain rfl := Except.ok.inj hwritten
    obtain ⟨directory, rfl, hsteps, hother⟩ := steps_of_placeFor hname hp hplace
    have hput := FileTree.at?_put (.file (.text text)) (directory ++ [name]) w.tree
    refine readText_eq_ok_iff.mpr ⟨directory ++ [name], ?_, hput⟩
    rw [resolve_of_segments hname hp, FileTree.steps_put _ hother hsteps]
    exact FileTree.step_into hname hput

end Workspace

end SourceAudit
