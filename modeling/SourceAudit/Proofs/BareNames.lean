/-
  SourceAudit/Proofs/BareNames.lean
  =================================
  **Patterns without a slash.**

  An exception can be written without a slash, as a name or with wildcards and classes.  Only
  a `**`, which alone fills such a pattern, stands for a slash (`Glob.not_mem_of_matches`);
  so of a longer path the pattern can select no more than its last segment
  (`FilePattern.IsBare.selects_lastSegment`).  From every side a file is looked at, the last
  segment is its name (`Resolver.Seen.lastSegment`).  Therefore the pattern sees nothing but
  the name (`Resolver.selects_bare`), and under such exceptions two files of one name have the
  same thresholds, wherever they are and from wherever they are looked at
  (`Resolver.resolve_bare`).
-/
import SourceAudit.Proofs.FirstException
import SourceAudit.Proofs.Selection

namespace SourceAudit

open Text (forwardSlashes lastSegment)

/-! ### Texts without a slash -/

theorem Text.lastSegment_of_not_mem {t : List Char} (ht : '/' ∉ t) : lastSegment '/' t = t :=
  (Text.lastSegment_eq_iff ht t).mpr ⟨[], .none, rfl⟩

/-- Slashes for backslashes leave a last segment without a backslash as it is. -/
theorem Text.lastSegment_forwardSlashes {t n : List Char} (hslash : '/' ∉ n) (hback : '\\' ∉ n)
    (hlast : lastSegment '/' t = n) : lastSegment '/' (forwardSlashes t) = n := by
  obtain ⟨s, hs, rfl⟩ := (Text.lastSegment_eq_iff hslash t).mp hlast
  have hkept : forwardSlashes n = n := Text.forwardSlashes_eq_self_iff.mpr hback
  have hwhole : Glob.WholeSegments (forwardSlashes s) := by
    rw [Glob.WholeSegments.iff_getLast?] at hs ⊢
    intro c hc
    rw [forwardSlashes, List.getLast?_map, Option.mem_def, Option.map_eq_some_iff] at hc
    obtain ⟨d, hd, rfl⟩ := hc
    rw [hs d hd]
    rfl
  rw [Text.lastSegment_eq_iff hslash]
  refine ⟨forwardSlashes s, hwhole, ?_⟩
  rw [forwardSlashes, List.map_append]
  exact congrArg _ hkept

namespace Glob

/-- A token for one character that is no slash keeps a text without a slash so. -/
theorem not_mem_of_matches_single {token : Token} {ts : List Token} {t : List Char}
    (hsingle : token.IsSingle) (hrefused : token.accepts .separate '/' = false)
    (hrest : ∀ u, Matches ts u → '/' ∉ u) (h : Matches (token :: ts) t) : '/' ∉ t := by
  obtain ⟨d, u, rfl, hd, hu⟩ := (matches_single hsingle).mp h
  refine List.not_mem_cons_of_ne_of_not_mem ?_ (hrest u hu)
  rintro rfl
  rw [hrefused] at hd
  cases hd

/-- Tokens of a pattern without a slash stand for texts without one, unless it is a `**`. -/
theorem not_mem_of_matches {start : Bool} {p t : List Char} {ts : List Token}
    (h : Reads start p ts) (hslash : '/' ∉ p) (hstars : start = true → p ≠ ['*', '*'])
    (hmatches : Matches ts t) : '/' ∉ t := by
  induction h generalizing t with
  | nil =>
    rw [Matches] at hmatches
    rw [hmatches]
    exact List.not_mem_nil
  | @literal _ c p ts _ _ _ _ ih =>
    rw [List.mem_cons, not_or] at hslash
    have hopen : decide (c = '/') = true → p ≠ ['*', '*'] := fun hopen =>
      absurd (of_decide_eq_true hopen).symm hslash.1
    refine not_mem_of_matches_single (by simp [Token.IsSingle]) ?_ ?_ hmatches
    · exact decide_eq_false hslash.1
    · exact fun u hu => ih hslash.2 hopen hu
  | anyChar _ ih =>
    refine not_mem_of_matches_single (by simp [Token.IsSingle]) rfl ?_ hmatches
    exact fun u hu => ih (fun hmem => hslash (List.mem_cons_of_mem _ hmem)) (by simp) hu
  | anyRun _ _ ih =>
    obtain ⟨run, u, rfl, hrun, hu⟩ := hmatches
    have hrest := ih (fun hmem => hslash (List.mem_cons_of_mem _ hmem)) (by simp) hu
    rw [List.mem_append, not_or]
    exact ⟨hrun, hrest⟩
  | segments => exact absurd (by simp) hslash
  | last => exact absurd rfl (hstars rfl)
  | inside _ _ _ ih =>
    refine not_mem_of_matches_single (by simp [Token.IsSingle]) rfl ?_ hmatches
    exact fun u hu => ih (fun hmem => hslash (by simp [hmem])) (by simp) hu
  | outside _ _ ih =>
    refine not_mem_of_matches_single (by simp [Token.IsSingle]) rfl ?_ hmatches
    exact fun u hu => ih (fun hmem => hslash (by simp [hmem])) (by simp) hu

end Glob

/-! ### What a pattern without a slash selects -/

/-- A pattern that can be read, without a slash once backslashes are slashes. -/
structure FilePattern.IsBare (fp : FilePattern) : Prop where
  read : ∃ pattern, FilePattern.read pattern = .ok fp
  no_slash : '/' ∉ fp.text.toList

/-- Such a pattern selects a text only if it selects the last segment of it. -/
theorem FilePattern.IsBare.selects_lastSegment {fp : FilePattern} (h : fp.IsBare)
    {t : List Char} (hselects : fp.selects t = true) :
    fp.selects (lastSegment '/' t) = true := by
  obtain ⟨⟨pattern, hread⟩, hslash⟩ := h
  obtain ⟨htext, hglob⟩ := read_ok hread
  rw [selects_iff_selected hread, ← htext] at hselects ⊢
  rcases hselects with rfl | ⟨hwild, hdenotes⟩ | ⟨-, hends⟩
  · rw [Text.lastSegment_of_not_mem hslash]
    exact .inl rfl
  · by_cases hstars : fp.text.toList = ['*', '*']
    · rw [hstars]
      exact .inr (.inl ⟨.inl (by decide), .everything⟩)
    · -- a wildcard is a glob, whose tokens keep the slashes out
      rw [← hasWildcard_iff] at hwild
      rcases hglob with ⟨-, hplain⟩ | ⟨glob, -, -, hglob⟩
      · rw [hplain] at hwild
        cases hwild
      · obtain ⟨ts, hreads⟩ := Glob.readable_iff.mp ⟨glob, hglob⟩
        have hmatches := (Glob.matches_iff_denotes hreads t).mpr hdenotes
        have hwhole := Glob.not_mem_of_matches hreads hslash (fun _ => hstars) hmatches
        rw [Text.lastSegment_of_not_mem hwhole]
        exact .inr (.inl ⟨(hasWildcard_iff _).mp hwild, hdenotes⟩)
  · rw [(Text.lastSegment_eq_iff hslash t).mpr hends]
    exact .inl rfl

/-! ### The last segment of every side -/

namespace Path

theorem getLast?_of_components {body : List String} {n : String}
    (hlast : (body.map component).getLast? = some (.name n)) : body.getLast? = some n := by
  rw [List.getLast?_map, Option.map_eq_some_iff] at hlast
  obtain ⟨s, hs, hname⟩ := hlast
  have htext := congrArg Component.text hname
  rw [text_component, Component.text] at htext
  rwa [htext] at hs

/-- What stands behind a directory on the way to a file ends with the name of the file. -/
theorem Behind.segments_getLast? {p base q : Path} {n : String} (h : Behind p base q)
    (hinside : p.folded ≠ base.folded) (hname : p.fileName? = some n) :
    q.segments.getLast? = some n := by
  obtain ⟨tail, htail, rfl⟩ := h
  have hne : tail ≠ [] := by
    rintro rfl
    rw [List.append_nil] at htail
    apply hinside
    rw [← ofComponents_folded p, htail, ofComponents_folded]
  have hlast : tail.getLast? = some (.name n) := by
    have hend := fileName?_eq_some_iff.mp (fileName?_folded hname)
    rwa [htail, List.getLast?_append_of_ne_nil _ hne] at hend
  have hfolded := foldedList_folded p
  rw [htail] at hfolded
  rcases hfolded.cut with ⟨-, body, hbody, rfl⟩ | ⟨-, more, -, hmore, rfl, -⟩
  · have hfull : body ≠ [] := by
      rintro rfl
      cases hlast
    rw [List.getLast?_cons_of_ne_nil (by simpa using hfull)] at hlast
    rw [ofComponents_rooted, hbody.rooted_segments, if_neg hfull,
      List.getLast?_cons_of_ne_nil hfull]
    exact getLast?_of_components hlast
  · have hfull : more ≠ [] := by
      rintro rfl
      cases hlast
    rw [ofComponents_counted, hmore.segments_eq, if_neg hfull]
    exact getLast?_of_components hlast

end Path

namespace Resolver

variable {r : Resolver} {file : Path} {n : String}

/-- From every side a file is looked at, the last segment is its name. -/
theorem Seen.lastSegment {s : String} (h : r.Seen file s) (hname : file.fileName? = some n)
    (hback : '\\' ∉ n.toList) : Text.lastSegment '/' s.toList = n.toList := by
  have hslash : '/' ∉ n.toList :=
    (Path.plain_of_mem_components (List.mem_of_getLast? (Path.fileName?_eq_some_iff.mp hname))).2.2
  have hbehind {directory q : Path} (hq : (r.base.join file).Behind directory q)
      (hinside : (r.base.join file).folded ≠ directory.folded) :
      Text.lastSegment '/' q.slashText.toList = n.toList := by
    have hend := hq.segments_getLast? hinside (Path.fileName?_join r.base hname)
    rw [Path.slashText, String.toList_ofList]
    apply Text.lastSegment_forwardSlashes hslash hback
    rw [Path.segments, List.getLast?_map, Option.map_eq_some_iff] at hend
    obtain ⟨segment, hsegment, rfl⟩ := hend
    rw [Text.lastSegment, List.getLastD_eq_getLast?, hsegment, Option.getD_some,
      String.toList_ofList]
  cases h with
  | base hq hinside => exact hbehind hq hinside
  | configuration _ hq hinside => exact hbehind hq hinside
  | name hlast =>
    rw [← Path.fileName?_eq_some_iff, hname, Option.some.injEq] at hlast
    rw [← hlast, Text.lastSegment_of_not_mem hslash]

/-- A pattern without a slash sees the name of a file only. -/
theorem selects_bare {fp : FilePattern} (hbare : fp.IsBare) (hname : file.fileName? = some n)
    (hback : '\\' ∉ n.toList) : r.selects file fp = fp.selects n.toList := by
  rw [Bool.eq_iff_iff, selects, List.any_eq_true]
  constructor
  · rintro ⟨s, hs, hselects⟩
    rw [← (mem_projections_iff.mp hs).lastSegment hname hback]
    exact hbare.selects_lastSegment hselects
  · intro hselects
    exact ⟨n, mem_projections_iff.mpr (.name (Path.fileName?_eq_some_iff.mp hname)), hselects⟩

/-- **The name decides.**  When no exception has a slash in its pattern, two files of one name,
    without a backslash in it, have the same thresholds: in whatever directories they are, and
    from whatever base and directory of a configuration they are looked at. -/
theorem resolve_bare {config : RuleConfig} (hbare : ∀ e ∈ config.exceptions, e.pattern.IsBare)
    (hback : '\\' ∉ n.toList) {r' : Resolver} {file' : Path} (hname : file.fileName? = some n)
    (hname' : file'.fileName? = some n) (metric : Option String) :
    (r.resolve file config metric).value = (r'.resolve file' config metric).value := by
  rw [value_resolve, value_resolve]
  refine thresholds_eq_of_selects ?_
  intro e he
  rw [selects_bare (hbare e he) hname hback, selects_bare (hbare e he) hname' hback]

/-- The generated file, and one of its name in a run over another directory. -/
theorem resolve_bare_generated :
    ∃ mine, FilePattern.read "[!x]p?.*" = .ok mine ∧ mine.IsBare ∧
      (∀ metric, (libraryResolver.resolve generatedPath
          { countedConfig with exceptions := [exceptionFor mine] } metric).value =
        ((⟨⟨"/srv/app"⟩, none⟩ : Resolver).resolve ⟨"../src/api.dart"⟩
          { countedConfig with exceptions := [exceptionFor mine] } metric).value) ∧
      (libraryResolver.resolve generatedPath { countedConfig with exceptions := [exceptionFor mine] }
        none).value = ⟨some (.infinity false), none⟩ := by
  obtain ⟨mine, hmine, hslash, hvalue⟩ : ∃ mine, FilePattern.read "[!x]p?.*" = .ok mine ∧
      '/' ∉ mine.text.toList ∧ (libraryResolver.resolve generatedPath
        { countedConfig with exceptions := [exceptionFor mine] } none).value =
          ⟨some (.infinity false), none⟩ :=
    ⟨_, rfl, by decide, by decide +kernel⟩
  have hbare : mine.IsBare := ⟨⟨_, hmine⟩, hslash⟩
  have hname : generatedPath.fileName? = some "api.dart" := by decide
  have hback : '\\' ∉ "api.dart".toList := by decide
  refine ⟨mine, hmine, hbare, ?_, hvalue⟩
  intro metric
  have hall : ∀ e ∈ [exceptionFor mine], e.pattern.IsBare := by
    intro e he
    rw [List.mem_singleton.mp he]
    exact hbare
  exact resolve_bare hall hback hname (by decide) metric

end Resolver

end SourceAudit
