/-
  SourceAudit/Proofs/ExcludePatterns.lean
  =======================================
  **Exclude patterns, as they are loaded and as they are used.**

  A configuration is checked with its exclude patterns as they are written; a search reads
  them with slashes for backslashes.  Slashes matter to a pattern in one place only: a `**`
  must fill a segment.  What can be read is what the grammar of patterns has
  (`Glob.readable_iff`), and

    * slashes for backslashes keep a pattern in the grammar   — `reads_forwardSlashes`;
    * a `**` beside a backslash keeps a pattern out of it     — `not_reads_of_stars`;
    * and nothing else does that slashes would mend           — `reads_of_forwardSlashes`.

  Whatever is loaded can be used, and a pattern that could be used is refused exactly when
  it has a `**` beside a backslash (`ConfigDraft.loads_iff_search_reads`).
-/
import SourceAudit.Proofs.Glob.Reading
import SourceAudit.Proofs.Validation
import SourceAudit.Discovery

namespace SourceAudit

open Text (forwardSlashes)

/-! ### Slashes for backslashes -/

namespace Text

theorem exists_of_forwardSlashes_eq_cons {p q : List Char} {c : Char}
    (h : forwardSlashes p = c :: q) (hc : c ≠ '/') :
    ∃ p', p = c :: p' ∧ forwardSlashes p' = q := by
  obtain ⟨d, p', rfl, hd, hq⟩ := List.map_eq_cons_iff.mp h
  refine ⟨p', ?_, hq⟩
  split at hd
  · exact absurd hd.symm hc
  · rw [hd]

theorem exists_of_forwardSlashes_eq_slash {p q : List Char} (h : forwardSlashes p = '/' :: q) :
    ∃ d p', p = d :: p' ∧ (d = '/' ∨ d = '\\') ∧ forwardSlashes p' = q := by
  obtain ⟨d, p', rfl, hd, hq⟩ := List.map_eq_cons_iff.mp h
  refine ⟨d, p', rfl, ?_, hq⟩
  split at hd
  · next hback => exact .inr hback
  · exact .inl hd

theorem mem_forwardSlashes {s : List Char} {c : Char} (hslash : c ≠ '/') (hback : c ≠ '\\') :
    c ∈ forwardSlashes s ↔ c ∈ s := by
  rw [forwardSlashes, List.mem_map]
  constructor
  · rintro ⟨d, hd, hsame⟩
    split at hsame
    · exact absurd hsame.symm hslash
    · rwa [← hsame]
  · intro hc
    exact ⟨c, hc, if_neg hback⟩

theorem head?_forwardSlashes {s : List Char} {c : Char} (hslash : c ≠ '/') (hback : c ≠ '\\') :
    (forwardSlashes s).head? = some c ↔ s.head? = some c := by
  cases s with
  | nil => rfl
  | cons d s =>
    have hone := mem_forwardSlashes (s := [d]) hslash hback
    simpa [forwardSlashes, eq_comm] using hone

end Text

namespace Glob

theorem isClassBody_forwardSlashes {body : List Char} :
    IsClassBody (forwardSlashes body) ↔ IsClassBody body := by
  have hne : forwardSlashes body ≠ [] ↔ body ≠ [] := not_congr List.map_eq_nil_iff
  have htail : (forwardSlashes body).tail = forwardSlashes body.tail := List.map_tail.symm
  have hclose : ']' ∈ forwardSlashes body.tail ↔ ']' ∈ body.tail :=
    Text.mem_forwardSlashes (by decide) (by decide)
  constructor
  · intro h
    exact ⟨hne.mp h.ne_nil, fun hmem => h.no_close (htail ▸ hclose.mpr hmem)⟩
  · intro h
    exact ⟨hne.mpr h.ne_nil, fun hmem => h.no_close (hclose.mp (htail ▸ hmem))⟩

/-! ### A pattern with slashes for its backslashes -/

/-- A pattern of the grammar stays in it, also where a segment begins only then. -/
theorem reads_forwardSlashes {start : Bool} {p : List Char} {ts : List Token}
    (h : Reads start p ts) (start' : Bool) (hstart : start = true → start' = true) :
    ∃ ts', Reads start' (forwardSlashes p) ts' := by
  induction h generalizing start' with
  | nil => exact ⟨[], .nil⟩
  | @literal _ c p _ hstar hquestion hopen _ ih =>
    by_cases hback : c = '\\'
    · subst hback
      obtain ⟨ts', hrest⟩ := ih true (by simp)
      exact ⟨_, .literal (by decide) (by decide) (by decide) hrest⟩
    · obtain ⟨ts', hrest⟩ := ih (c = '/') id
      refine ⟨.literal c :: ts', ?_⟩
      rw [forwardSlashes, List.map_cons, if_neg hback]
      exact .literal hstar hquestion hopen hrest
  | anyChar _ ih =>
    obtain ⟨ts', hrest⟩ := ih false id
    exact ⟨_, .anyChar hrest⟩
  | anyRun hstars _ ih =>
    obtain ⟨ts', hrest⟩ := ih false id
    refine ⟨_, .anyRun ?_ hrest⟩
    exact fun hhead => hstars ((Text.head?_forwardSlashes (by decide) (by decide)).mp hhead)
  | segments _ ih =>
    obtain rfl := hstart rfl
    obtain ⟨ts', hrest⟩ := ih true id
    exact ⟨_, .segments hrest⟩
  | last =>
    obtain rfl := hstart rfl
    exact ⟨_, .last⟩
  | @inside _ body p _ hbody hmark _ ih =>
    obtain ⟨ts', hrest⟩ := ih false id
    refine ⟨.oneOf (classItems (forwardSlashes body)) :: ts', ?_⟩
    rw [forwardSlashes, List.map_cons, List.map_append, List.map_cons]
    refine .inside (isClassBody_forwardSlashes.mpr hbody) ?_ hrest
    exact fun hhead => hmark ((Text.head?_forwardSlashes (by decide) (by decide)).mp hhead)
  | @outside _ body p _ hbody _ ih =>
    obtain ⟨ts', hrest⟩ := ih false id
    refine ⟨.noneOf (classItems (forwardSlashes body)) :: ts', ?_⟩
    rw [forwardSlashes, List.map_cons, List.map_cons, List.map_append, List.map_cons]
    exact .outside (isClassBody_forwardSlashes.mpr hbody) hrest

/-- Outside of classes the pattern has a `**` with a backslash right before or right behind it.
    The flag says whether a backslash stands in front of the pattern. -/
inductive StarsAtBackslash : Bool → List Char → Prop
  | behind {p : List Char} : StarsAtBackslash true ('*' :: '*' :: p)
  | before {b : Bool} {p : List Char} : StarsAtBackslash b ('*' :: '*' :: '\\' :: p)
  | char {b : Bool} {c : Char} {p : List Char} : c ≠ '[' → StarsAtBackslash (c = '\\') p →
      StarsAtBackslash b (c :: p)
  | inside {b : Bool} {body p : List Char} : IsClassBody body → body.head? ≠ some '!' →
      StarsAtBackslash false p → StarsAtBackslash b ('[' :: (body ++ ']' :: p))
  | outside {b : Bool} {body p : List Char} : IsClassBody body → StarsAtBackslash false p →
      StarsAtBackslash b ('[' :: '!' :: (body ++ ']' :: p))

/-- What stands behind a character of a pattern is in the grammar: behind the first of two stars
    the second one is a `*`. -/
theorem exists_reads_tail {start : Bool} {c : Char} {p : List Char} {ts : List Token}
    (h : Reads start (c :: p) ts) (hopen : c ≠ '[') : ∃ ts', Reads (c = '/') p ts' := by
  cases h with
  | literal _ _ _ hrest => exact ⟨_, hrest⟩
  | anyChar hrest => exact ⟨_, hrest⟩
  | anyRun _ hrest => exact ⟨_, hrest⟩
  | segments hrest =>
    refine ⟨_, .anyRun ?_ (.literal (c := '/') (by decide) (by decide) (by decide) hrest)⟩
    simp
  | last => exact ⟨_, .anyRun (by decide) .nil⟩
  | inside => exact absurd rfl hopen
  | outside => exact absurd rfl hopen

theorem exists_reads_behind_class {start : Bool} {q : List Char} {ts : List Token}
    (h : Reads start ('[' :: q) ts) : ∃ body p ts', IsClassBody body ∧ Reads false p ts' ∧
      (q = body ++ ']' :: p ∧ body.head? ≠ some '!' ∨ q = '!' :: (body ++ ']' :: p)) := by
  cases h with
  | literal _ _ hopen => exact absurd rfl hopen
  | inside hbody hmark hrest => exact ⟨_, _, _, hbody, hrest, .inl ⟨rfl, hmark⟩⟩
  | outside hbody hrest => exact ⟨_, _, _, hbody, hrest, .inr rfl⟩

/-- The mark of a negated class is no first character of one that is not. -/
theorem head?_append_class {body p : List Char} (hbody : IsClassBody body)
    (hmark : body.head? ≠ some '!') {q : List Char} : body ++ ']' :: p ≠ '!' :: q := by
  obtain ⟨c, rest, rfl⟩ := List.exists_cons_of_ne_nil hbody.ne_nil
  intro hsame
  rw [List.cons_append, List.cons.injEq] at hsame
  exact hmark (by rw [List.head?_cons, hsame.1])

/-- A pattern with a `**` beside a backslash is not in the grammar: at a backslash no segment
    begins. -/
theorem not_reads_of_stars {b : Bool} {p : List Char} (h : StarsAtBackslash b p) {start : Bool}
    (hstart : b = true → start = false) (ts : List Token) : ¬ Reads start p ts := by
  induction h generalizing start ts with
  | behind =>
    obtain rfl := hstart rfl
    intro hreads
    cases hreads with
    | literal hstar => exact hstar rfl
    | anyRun hstars => exact hstars rfl
  | before =>
    intro hreads
    cases hreads with
    | literal hstar => exact hstar rfl
    | anyRun hstars => exact hstars rfl
  | @char _ c p hopen _ ih =>
    intro hreads
    obtain ⟨ts', hrest⟩ := exists_reads_tail hreads hopen
    refine ih ?_ ts' hrest
    intro hback
    obtain rfl : c = '\\' := by simpa using hback
    rfl
  | @inside _ body p hbody hmark _ ih =>
    intro hreads
    obtain ⟨body', p', ts', hbody', hrest, ⟨hsame, -⟩ | hsame⟩ := exists_reads_behind_class hreads
    · obtain ⟨-, rfl⟩ := hbody.unique hbody' hsame
      exact ih (by simp) ts' hrest
    · exact head?_append_class hbody hmark hsame
  | @outside _ body p hbody _ ih =>
    intro hreads
    obtain ⟨body', p', ts', hbody', hrest, ⟨hsame, hmark⟩ | hsame⟩ :=
      exists_reads_behind_class hreads
    · exact head?_append_class hbody' hmark hsame.symm
    · obtain ⟨-, rfl⟩ := hbody.unique hbody' (List.cons.inj hsame).2
      exact ih (by simp) ts' hrest

/-- A pattern that is in the grammar with slashes for its backslashes is so as it is written,
    unless it has a `**` beside a backslash. -/
theorem reads_of_forwardSlashes {start' : Bool} {q : List Char} {ts : List Token}
    (h : Reads start' q ts) {p : List Char} (hp : forwardSlashes p = q) {start b : Bool}
    (hstart : start' = (start || b)) (hstars : ¬ StarsAtBackslash b p) :
    ∃ ts', Reads start p ts' := by
  induction h generalizing p start b with
  | nil =>
    obtain rfl := List.map_eq_nil_iff.mp hp
    exact ⟨[], .nil⟩
  | @literal _ c q _ hstar hquestion hopen _ ih =>
    obtain ⟨d, p, rfl, hd, rfl⟩ := List.map_eq_cons_iff.mp hp
    have hplain : d ≠ '*' ∧ d ≠ '?' ∧ d ≠ '[' := by
      split at hd
      · next hback =>
        subst hback
        decide
      · exact hd ▸ ⟨hstar, hquestion, hopen⟩
    have hflag : decide (c = '/') = (decide (d = '/') || decide (d = '\\')) := by
      split at hd
      · next hback =>
        subst hd hback
        decide
      · next hback =>
        subst hd
        simp [hback]
    obtain ⟨ts', hrest⟩ := ih rfl hflag fun h => hstars (.char hplain.2.2 h)
    exact ⟨_, .literal hplain.1 hplain.2.1 hplain.2.2 hrest⟩
  | anyChar _ ih =>
    obtain ⟨p, rfl, hrest⟩ := Text.exists_of_forwardSlashes_eq_cons hp (by decide)
    have hnext : ¬ StarsAtBackslash false p := fun h => hstars (.char (by decide) h)
    obtain ⟨ts', hreads⟩ := ih hrest (Bool.or_false _).symm hnext
    exact ⟨_, .anyChar hreads⟩
  | anyRun hhead _ ih =>
    obtain ⟨p, rfl, rfl⟩ := Text.exists_of_forwardSlashes_eq_cons hp (by decide)
    have hnext : ¬ StarsAtBackslash false p := fun h => hstars (.char (by decide) h)
    obtain ⟨ts', hreads⟩ := ih rfl (Bool.or_false _).symm hnext
    refine ⟨_, .anyRun ?_ hreads⟩
    exact fun h => hhead ((Text.head?_forwardSlashes (by decide) (by decide)).mpr h)
  | segments _ ih =>
    obtain ⟨_, rfl, hsecond⟩ := Text.exists_of_forwardSlashes_eq_cons hp (by decide)
    obtain ⟨_, rfl, hthird⟩ := Text.exists_of_forwardSlashes_eq_cons hsecond (by decide)
    obtain ⟨d, p, rfl, rfl | rfl, hrest⟩ := Text.exists_of_forwardSlashes_eq_slash hthird
    · have hnext : ¬ StarsAtBackslash false p := fun h =>
        hstars (.char (by decide) (.char (by decide) (.char (by decide) h)))
      obtain ⟨ts', hreads⟩ := ih hrest (Bool.or_false _).symm hnext
      obtain rfl : start = true := by
        by_contra hclosed
        obtain rfl : b = true := by simpa [hclosed] using hstart.symm
        exact hstars .behind
      exact ⟨_, .segments hreads⟩
    · exact absurd .before hstars
  | last =>
    obtain ⟨_, rfl, hsecond⟩ := Text.exists_of_forwardSlashes_eq_cons hp (by decide)
    obtain ⟨_, rfl, hthird⟩ := Text.exists_of_forwardSlashes_eq_cons hsecond (by decide)
    obtain rfl := List.map_eq_nil_iff.mp hthird
    obtain rfl : start = true := by
      by_contra hclosed
      obtain rfl : b = true := by simpa [hclosed] using hstart.symm
      exact hstars .behind
    exact ⟨_, .last⟩
  | @inside _ body q _ hbody hmark _ ih =>
    obtain ⟨_, rfl, hsecond⟩ := Text.exists_of_forwardSlashes_eq_cons hp (by decide)
    obtain ⟨body, tail, rfl, rfl, htail⟩ := List.map_eq_append_iff.mp hsecond
    obtain ⟨p, rfl, hrest⟩ := Text.exists_of_forwardSlashes_eq_cons htail (by decide)
    have hwritten := isClassBody_forwardSlashes.mp hbody
    have hunmarked : body.head? ≠ some '!' := fun h =>
      hmark ((Text.head?_forwardSlashes (by decide) (by decide)).mpr h)
    have hnext : ¬ StarsAtBackslash false p := fun h => hstars (.inside hwritten hunmarked h)
    obtain ⟨ts', hreads⟩ := ih hrest (Bool.or_false _).symm hnext
    exact ⟨_, .inside hwritten hunmarked hreads⟩
  | @outside _ body q _ hbody _ ih =>
    obtain ⟨_, rfl, hsecond⟩ := Text.exists_of_forwardSlashes_eq_cons hp (by decide)
    obtain ⟨_, rfl, hthird⟩ := Text.exists_of_forwardSlashes_eq_cons hsecond (by decide)
    obtain ⟨body, tail, rfl, rfl, htail⟩ := List.map_eq_append_iff.mp hthird
    obtain ⟨p, rfl, hrest⟩ := Text.exists_of_forwardSlashes_eq_cons htail (by decide)
    have hwritten := isClassBody_forwardSlashes.mp hbody
    have hnext : ¬ StarsAtBackslash false p := fun h => hstars (.outside hwritten h)
    obtain ⟨ts', hreads⟩ := ih hrest (Bool.or_false _).symm hnext
    exact ⟨_, .outside hwritten hreads⟩

end Glob

/-! ### Loading and searching -/

namespace Discovery

theorem readExclude_readable_iff {pattern : String} :
    (∃ glob, readExclude pattern = .ok glob) ↔
      ∃ ts, Glob.Reads true (forwardSlashes pattern.toList) ts := by
  have hread := Glob.readable_iff (s := String.ofList (forwardSlashes pattern.toList))
  rw [String.toList_ofList] at hread
  rw [← hread, readExclude]
  split
  · next glob hglob => exact ⟨fun _ => ⟨glob, hglob⟩, fun _ => ⟨glob, rfl⟩⟩
  · next reason hreason => simp [hreason]

/-- A search can be set up when every exclude pattern can be read. -/
theorem exists_read_iff {language : Language} {patterns : List String} {git : Bool} :
    (∃ search, read language patterns git = .ok search) ↔
      ∀ pattern ∈ patterns, ∃ glob, readExclude pattern = .ok glob := by
  have hall : (∃ globs, patterns.mapM readExclude = .ok globs) ↔
      ∀ pattern ∈ patterns, ∃ glob, readExclude pattern = .ok glob := by
    simp only [mapM_eq_ok_iff]
    induction patterns with
    | nil => simp
    | cons pattern rest ih =>
      simp only [List.forall₂_cons_left_iff, List.forall_mem_cons, ← ih]
      constructor
      · rintro ⟨globs, glob, more, hglob, hmore, -⟩
        exact ⟨⟨glob, hglob⟩, more, hmore⟩
      · rintro ⟨⟨glob, hglob⟩, more, hmore⟩
        exact ⟨glob :: more, glob, more, hglob, hmore, rfl⟩
  rw [← hall]
  constructor
  · rintro ⟨search, hread⟩
    obtain ⟨globs, hglobs, -⟩ := bind_eq_ok_iff.mp hread
    exact ⟨globs, hglobs⟩
  · rintro ⟨globs, hglobs⟩
    exact ⟨_, bind_eq_ok_iff.mpr ⟨globs, hglobs, rfl⟩⟩

end Discovery

/-- A pattern can be read as it is written when a search can read it and no `**` in it stands
    beside a backslash. -/
theorem Glob.readable_iff_readExclude {pattern : String} :
    (∃ glob, Glob.read pattern = .ok glob) ↔
      (∃ glob, Discovery.readExclude pattern = .ok glob) ∧
        ¬ Glob.StarsAtBackslash false pattern.toList := by
  rw [Glob.readable_iff, Discovery.readExclude_readable_iff]
  constructor
  · rintro ⟨ts, hreads⟩
    refine ⟨Glob.reads_forwardSlashes hreads true id, fun hstars => ?_⟩
    exact Glob.not_reads_of_stars hstars (by simp) ts hreads
  · rintro ⟨⟨ts, hreads⟩, hstars⟩
    exact Glob.reads_of_forwardSlashes hreads rfl rfl hstars

namespace ConfigDraft

theorem loads_iff_acceptable {c : ConfigDraft} (hnodup : (c.topLevel.map Prod.fst).Nodup) :
    (∃ config, c.check.outcome = .ok config) ↔ c.Acceptable := by
  rw [(c.check_follows hnodup).ok_iff, faults_eq_nil_iff]

theorem acceptable_excluding_iff {c : ConfigDraft}
    (hrest : ({ c with exclude := [] } : ConfigDraft).Acceptable) {patterns : List String} :
    ({ c with exclude := patterns } : ConfigDraft).Acceptable ↔
      ∀ pattern ∈ patterns, ∃ glob, Glob.read pattern = .ok glob := by
  constructor
  · intro h
    exact h.exclude
  · intro hpatterns
    exact ⟨hrest.level, hpatterns, hrest.blocks, hrest.topLevel, hrest.distinct⟩

/-- **What is loaded can be used.**  A draft that is otherwise in order becomes a configuration
    with some exclude patterns exactly when a search can read them and no `**` in them stands
    beside a backslash.  With the patterns of a configuration a search can always be set up. -/
theorem loads_iff_search_reads {excess : Shape.Excess} {d : Datum} {c : ConfigDraft}
    (hread : ofDatum excess d = .ok c) (language : Language) (git : Bool) :
    ((∃ config, ({ c with exclude := [] } : ConfigDraft).check.outcome = .ok config) →
      ∀ patterns : List String,
        (∃ config, ({ c with exclude := patterns } : ConfigDraft).check.outcome = .ok config) ↔
          (∃ search, Discovery.read language patterns git = .ok search) ∧
            ∀ pattern ∈ patterns, ¬ Glob.StarsAtBackslash false pattern.toList) ∧
    ∀ config, c.check.outcome = .ok config →
      ∃ search, Discovery.read language config.exclude git = .ok search := by
  have hnodup := topLevel_nodup hread
  constructor
  · intro hrest patterns
    have hrest := (loads_iff_acceptable (c := { c with exclude := [] }) hnodup).mp hrest
    have hloads := loads_iff_acceptable (c := { c with exclude := patterns }) hnodup
    rw [hloads, acceptable_excluding_iff hrest, Discovery.exists_read_iff]
    simp only [Glob.readable_iff_readExclude]
    exact forall₂_and
  · intro config hconfig
    rw [((c.check_follows hnodup).of_ok hconfig).exclude, Discovery.exists_read_iff]
    intro pattern hpattern
    have hacceptable := (loads_iff_acceptable hnodup).mp ⟨config, hconfig⟩
    exact (Glob.readable_iff_readExclude.mp (hacceptable.exclude pattern hpattern)).1

/-- A document with a rule and one pattern, which has backslashes, but none beside a `**`. -/
def excludingDocument : Datum :=
  .table
    [("analyzer", .table [("exclude", .list [.text "lib\\gen/**/[**\\]?.dart"])]),
    ("rules", .table [("imports", .table [("log_level", .text "error")])])]

def excludingDraft (patterns : List String) : ConfigDraft :=
  ⟨none, none, patterns, none, [("imports", ⟨none, .off, some "error", [], [], []⟩)], []⟩

theorem loads_iff_search_reads_excluding :
    ofDatum .refused excludingDocument = .ok (excludingDraft ["lib\\gen/**/[**\\]?.dart"]) ∧
      (∃ config, (excludingDraft []).check.outcome = .ok config) ∧
      ¬ (∃ config, (excludingDraft ["build/**", "lib\\**"]).check.outcome = .ok config) ∧
      ∃ search, Discovery.read .dart ["lib\\gen/**/[**\\]?.dart"] true = .ok search := by
  have hread : ofDatum .refused excludingDocument =
      .ok (excludingDraft ["lib\\gen/**/[**\\]?.dart"]) := by rfl
  have hrest : ∃ config, (excludingDraft []).check.outcome = .ok config := ⟨_, rfl⟩
  obtain ⟨hpatterns, hsearch⟩ := loads_iff_search_reads hread .dart true
  refine ⟨hread, hrest, ?_, hsearch _ rfl⟩
  intro hloads
  have hstars := ((hpatterns hrest ["build/**", "lib\\**"]).mp hloads).2 "lib\\**" (by simp)
  have htext : "lib\\**".toList = ['l', 'i', 'b', '\\', '*', '*'] := by decide
  rw [htext] at hstars
  exact hstars (.char (by decide) (.char (by decide) (.char (by decide)
    (.char (by decide) .behind))))

/-- A search reads `**\build\**`, and a configuration with this pattern is refused. -/
theorem refuses_usable_pattern :
    (∃ search, Discovery.read .dart ["**\\build\\**"] true = .ok search) ∧
      ¬ ∃ config, (excludingDraft ["**\\build\\**"]).check.outcome = .ok config := by
  refine ⟨⟨_, rfl⟩, ?_⟩
  rintro ⟨config, hconfig⟩
  cases hconfig

end ConfigDraft

end SourceAudit
