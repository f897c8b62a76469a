/-
  SourceAudit/Proofs/Selection.lean
  =================================
  **Which paths a pattern selects.**

  A file pattern selects a path in three ways: the path is its text, the text has a
  wildcard and the path is in its language (`Glob.Denotes`), or the text has no slash
  and is the last segment of the path.  Exclude patterns of a search select by their
  language alone.  In both a `**/` at the end of a pattern is read as `**`: it takes
  the files below a directory along, not only directories.
-/
import SourceAudit.Discovery
import SourceAudit.Proofs.Glob.Reading

namespace SourceAudit

open Glob

/-! ### Slashes for backslashes, and the last segment -/

theorem Text.forwardSlashes_eq_self_iff {s : List Char} : Text.forwardSlashes s = s ↔ '\\' ∉ s := by
  induction s with
  | nil => simp [Text.forwardSlashes]
  | cons c rest ih =>
    rw [Text.forwardSlashes] at ih ⊢
    rw [List.map_cons, List.cons.injEq, ih, List.mem_cons, not_or]
    by_cases hc : c = '\\'
    · simp [hc]
    · simp [hc, Ne.symm hc]

theorem Text.lastSegment_append {s u : List Char} (hs : WholeSegments s) (hu : '/' ∉ u) :
    Text.lastSegment '/' (s ++ u) = u := by
  rcases hs.eq_nil_or_concat with rfl | ⟨init, rfl⟩
  · simp [Text.lastSegment, Text.segments_of_not_mem hu]
  · rw [List.append_assoc, List.singleton_append, Text.lastSegment, Text.segments_append,
      Text.segments_of_not_mem hu]
    simp

theorem Text.lastSegment_eq_iff {p : List Char} (hp : '/' ∉ p) (c : List Char) :
    Text.lastSegment '/' c = p ↔ ∃ s, WholeSegments s ∧ c = s ++ p := by
  constructor
  · rintro rfl
    obtain ⟨s, u, rfl, hs, hu⟩ := exists_lastSegment c
    exact ⟨s, hs, by rw [Text.lastSegment_append hs hu]⟩
  · rintro ⟨s, hs, rfl⟩
    exact Text.lastSegment_append hs hp

/-! ### Three ways to select -/

/-- The path `c` is selected by the pattern `p`, in which backslashes are slashes. -/
def Selected (openEnd : Bool) (p c : List Char) : Prop :=
  c = p ∨ (('*' ∈ p ∨ '?' ∈ p) ∧ Denotes openEnd p c) ∨
    ('/' ∉ p ∧ ∃ s, WholeSegments s ∧ c = s ++ p)

theorem hasWildcard_iff (p : List Char) : hasWildcard p = true ↔ '*' ∈ p ∨ '?' ∈ p := by
  simp only [hasWildcard, List.any_eq_true, decide_eq_true_eq, Bool.or_eq_true]
  constructor
  · rintro ⟨c, hc, rfl | rfl⟩
    · exact .inl hc
    · exact .inr hc
  · rintro (h | h)
    · exact ⟨'*', h, .inl rfl⟩
    · exact ⟨'?', h, .inr rfl⟩

namespace FilePattern

/-- What is left of a pattern that is accepted. -/
theorem read_ok {pattern : String} {fp : FilePattern} (h : read pattern = .ok fp) :
    fp.text.toList = Text.forwardSlashes pattern.toList ∧
      (fp.glob = none ∧ hasWildcard fp.text.toList = false ∨
        ∃ glob, fp.glob = some glob ∧ hasWildcard fp.text.toList = true ∧
          Glob.read fp.text = .ok glob) := by
  rw [read] at h
  split at h
  · cases h
  · dsimp only at h
    split at h
    · next hwild =>
      split at h
      · next glob hglob =>
        cases h
        exact ⟨String.toList_ofList, .inr ⟨glob, rfl, hwild, hglob⟩⟩
      · cases h
    · next hwild =>
      cases h
      exact ⟨String.toList_ofList, .inl ⟨rfl, by simpa using hwild⟩⟩

theorem selects_iff_selected {pattern : String} {fp : FilePattern}
    (h : read pattern = .ok fp) (path : List Char) :
    fp.selects path = true ↔ Selected true (Text.forwardSlashes pattern.toList) path := by
  obtain ⟨htext, hglob⟩ := read_ok h
  have hlanguage : fp.glob.any (·.matchesText .separate path) = true ↔
      ('*' ∈ fp.text.toList ∨ '?' ∈ fp.text.toList) ∧ Denotes true fp.text.toList path := by
    rw [← hasWildcard_iff]
    rcases hglob with ⟨hnone, hwild⟩ | ⟨glob, hsome, hwild, hread⟩
    · simp [hnone, hwild]
    · simp [hsome, hwild, matchesText_iff_denotes hread]
  have hsegment : (!fp.text.toList.contains '/' &&
        Text.lastSegment '/' path = fp.text.toList) = true ↔
      '/' ∉ fp.text.toList ∧ ∃ s, WholeSegments s ∧ path = s ++ fp.text.toList := by
    simp only [Bool.and_eq_true, Bool.not_eq_true', List.contains_eq_mem, decide_eq_false_iff_not,
      decide_eq_true_eq]
    constructor
    · rintro ⟨hslash, heq⟩
      exact ⟨hslash, (Text.lastSegment_eq_iff hslash path).mp heq⟩
    · rintro ⟨hslash, heq⟩
      exact ⟨hslash, (Text.lastSegment_eq_iff hslash path).mpr heq⟩
  rw [selects, Bool.or_eq_true, Bool.or_eq_true, hlanguage, hsegment, decide_eq_true_eq, or_assoc,
    htext, Selected]

end FilePattern

/-! ### Exclude patterns -/

namespace Discovery

theorem readExclude_ok {pattern : String} {glob : Glob} (h : readExclude pattern = .ok glob)
    (t : List Char) :
    glob.matchesText .separate t = true ↔
      Denotes true (Text.forwardSlashes pattern.toList) t := by
  rw [readExclude] at h
  split at h
  · next read hread =>
    cases h
    rw [matchesText_iff_denotes hread, String.toList_ofList]
  · cases h

theorem readExcludes_ok {patterns : List String} {globs : List Glob}
    (h : patterns.mapM readExclude = .ok globs) (t : List Char) :
    globs.any (·.matchesText .separate t) = true ↔
      ∃ pattern ∈ patterns, Denotes true (Text.forwardSlashes pattern.toList) t := by
  induction patterns generalizing globs with
  | nil =>
    cases h
    simp
  | cons pattern patterns ih =>
    rw [List.mapM_cons] at h
    cases hglob : readExclude pattern with
    | error e => simp [hglob, bind, Except.bind] at h
    | ok glob =>
      cases hrest : patterns.mapM readExclude with
      | error e => simp [hglob, hrest, bind, Except.bind] at h
      | ok rest =>
        obtain rfl : glob :: rest = globs := by
          simpa [hglob, hrest, bind, Except.bind, pure, Except.pure] using h
        rw [List.any_cons, Bool.or_eq_true, readExclude_ok hglob, ih hrest]
        simp

theorem excludes_iff {language : Language} {patterns : List String} {git : Bool} {d : Discovery}
    (h : read language patterns git = .ok d) (directory file : Path) :
    d.excludes directory file = true ↔ ∃ pattern ∈ patterns,
      Denotes true (Text.forwardSlashes pattern.toList) (file.displayedFrom directory).toList := by
  cases hglobs : patterns.mapM readExclude with
  | error e => simp [read, hglobs, bind, Except.bind] at h
  | ok globs =>
    obtain rfl : ⟨language, globs, git⟩ = d := by
      simpa [read, hglobs, bind, Except.bind, pure, Except.pure] using h
    exact readExcludes_ok hglobs _

end Discovery

/-! ### Selection by language -/

/-- **Patterns select their language.**  An accepted file pattern selects the paths that
    are its text, are in its language when it has a wildcard, or end in it when it has no
    slash.  An exclude pattern leaves out the files whose path below the searched
    directory is in its language. -/
theorem selects_iff_language :
    (∀ {pattern : String} {fp : FilePattern}, FilePattern.read pattern = .ok fp →
      ∀ path : List Char, fp.selects path = true ↔
        Selected true (Text.forwardSlashes pattern.toList) path) ∧
    ∀ {language : Language} {patterns : List String} {git : Bool} {d : Discovery},
      Discovery.read language patterns git = .ok d → ∀ directory file : Path,
        (d.excludes directory file = true ↔ ∃ pattern ∈ patterns,
          Denotes true (Text.forwardSlashes pattern.toList)
            (file.displayedFrom directory).toList) :=
  ⟨fun h path => FilePattern.selects_iff_selected h path,
    fun h directory file => Discovery.excludes_iff h directory file⟩

theorem selects_iff_language_models :
    ∃ fp, FilePattern.read "lib\\**/[!x]?.dart" = .ok fp ∧
      Selected true "lib/**/[!x]?.dart".toList "lib/models/a1.dart".toList ∧
      ¬ Selected true "lib/**/[!x]?.dart".toList "lib/x1.dart".toList := by
  obtain ⟨fp, hread, hin, hout⟩ : ∃ fp, FilePattern.read "lib\\**/[!x]?.dart" = .ok fp ∧
      fp.selects "lib/models/a1.dart".toList = true ∧
      fp.selects "lib/x1.dart".toList = false := ⟨_, rfl, by decide, by decide⟩
  refine ⟨fp, hread, (selects_iff_language.1 hread _).mp hin, ?_⟩
  intro hselected
  rw [(selects_iff_language.1 hread _).mpr hselected] at hout
  cases hout

/-- A `**/` at the end does not stand for whole segments only: `a/**/` selects `a/b`. -/
theorem selects_below_final_segments :
    (∃ fp, FilePattern.read "a/**/" = .ok fp ∧ fp.selects "a/b".toList = true) ∧
      ¬ Selected false (Text.forwardSlashes "a/**/".toList) "a/b".toList := by
  refine ⟨⟨_, rfl, by decide⟩, ?_⟩
  have htext : Text.forwardSlashes "a/**/".toList = ['a', '/', '*', '*', '/'] := by decide
  have hpath : "a/b".toList = ['a', '/', 'b'] := by decide
  rw [htext, hpath]
  rintro (hsame | ⟨-, hlanguage⟩ | ⟨hslash, -⟩)
  · simp at hsame
  · rw [denotes_literal (by decide) (by decide) (by decide)] at hlanguage
    obtain ⟨t, ht, hlanguage⟩ := hlanguage
    rw [denotes_literal (by decide) (by decide) (by decide)] at hlanguage
    obtain ⟨u, rfl, hlanguage⟩ := hlanguage
    obtain rfl : u = ['b'] := by simpa using ht.symm
    rcases denotes_segments.mp hlanguage with ⟨hopen, -⟩ | ⟨s, rest, heq, hs, hrest⟩
    · cases hopen
    · rw [denotes_nil.mp hrest, List.append_nil] at heq
      subst heq
      exact absurd (WholeSegments.iff_getLast?.mp hs 'b' rfl) (by decide)
  · simp at hslash

end SourceAudit
