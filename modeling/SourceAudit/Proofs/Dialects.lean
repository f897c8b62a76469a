/-
  SourceAudit/Proofs/Dialects.lean
  ================================
  **One text in two dialects.**

  A file belongs to Dart by its extension in any case, but its imports are read as Dart only
  where the extension is written exactly `dart`; in a file `A.DART` they are read as those of a
  script.  The two readings are the same exactly for the texts in which (`ReadAlike`)

    * no import or export has a clause,
    * no URI of a Dart import or export goes over several lines, and
    * no `part` with such a URI hides an import

  (`importsOf_owned_iff`).  That these are the only differences rests on the word before an
  opening quote, which is a keyword of Dart or the `from` of a clause (`Before.unique`).
-/
import SourceAudit.Proofs.StatementPlaces
import SourceAudit.Language
import Mathlib.Data.List.Pairwise
import Mathlib.Data.List.Sort

namespace SourceAudit

/-! ### The word behind which blanks stand -/

/-- Without the blanks at its end, a text ends with the word in front of them. -/
theorem Text.trimEnd_word (lead : List Char) {word blanks : List Char} (hne : word ≠ [])
    (hword : ∀ c ∈ word, isBlank c = false) (hblanks : ∀ c ∈ blanks, isBlank c = true) :
    trimEnd (lead ++ word ++ blanks) = lead ++ word := by
  obtain ⟨front, last, rfl⟩ := (List.eq_nil_or_concat' word).resolve_left hne
  have hlast : isBlank last = false := hword last (by simp)
  have hreverse : (lead ++ (front ++ [last]) ++ blanks).reverse =
      blanks.reverse ++ last :: (lead ++ front).reverse := by simp
  have hdrop : (blanks.reverse ++ last :: (lead ++ front).reverse).dropWhile isBlank =
      last :: (lead ++ front).reverse :=
    (Directive.takeWhile_of_stop (fun c hc => hblanks c (List.mem_reverse.mp hc)) hlast _).2
  rw [trimEnd, hreverse, hdrop]
  simp

namespace Directive

/-- A text up to an opening quote, in which blanks and before them the word stand in front of the
    quote. -/
def Before (word opening : List Char) : Prop :=
  ∃ lead blanks quote, IsBlanks blanks ∧ opening = lead ++ word ++ blanks ++ [quote]

/-- The words a URI can follow. -/
def uriWords : List (List Char) := "from".toList :: Dialect.dart.keywords.map Prod.fst

theorem mem_uriWords_iff {word : List Char} :
    word ∈ uriWords ↔ word = "from".toList ∨ ∃ kind, (word, kind) ∈ Dialect.dart.keywords := by
  simp [uriWords]

theorem from_not_keyword (kind : DirectiveKind) :
    ("from".toList, kind) ∉ Dialect.dart.keywords := by
  cases kind <;> decide

theorem uriWords_visible {word : List Char} (hword : word ∈ uriWords) :
    word ≠ [] ∧ ∀ c ∈ word, Text.isBlank c = false := by
  rcases mem_uriWords_iff.mp hword with rfl | ⟨kind, hkeyword⟩
  · exact ⟨by decide, Text.visible_of_all (by decide)⟩
  · obtain ⟨⟨first, letters, hletters, -⟩, -⟩ := plain_of_mem_keywords hkeyword
    obtain rfl : word = first :: letters := hletters
    exact ⟨List.cons_ne_nil first letters, visible_of_mem_keywords hkeyword⟩

/-- None of them ends another one. -/
theorem uriWords_apart {word word' : List Char} (hword : word ∈ uriWords)
    (hword' : word' ∈ uriWords) (hends : word <:+ word') : word = word' := by
  have hfrom : "from".toList = ['f', 'r', 'o', 'm'] := by decide
  have himport : "import".toList = ['i', 'm', 'p', 'o', 'r', 't'] := by decide
  have hexport : "export".toList = ['e', 'x', 'p', 'o', 'r', 't'] := by decide
  have hpart : "part".toList = ['p', 'a', 'r', 't'] := by decide
  simp only [uriWords, Dialect.keywords, List.map_cons, List.map_nil, List.mem_cons,
    List.not_mem_nil, or_false, hfrom, himport, hexport, hpart] at hword hword'
  rw [← List.reverse_prefix] at hends
  rcases hword with rfl | rfl | rfl | rfl <;> rcases hword' with rfl | rfl | rfl | rfl <;>
    simp at hends ⊢

theorem kind_unique {word : List Char} {kind kind' : DirectiveKind}
    (h : (word, kind) ∈ Dialect.dart.keywords) (h' : (word, kind') ∈ Dialect.dart.keywords) :
    kind = kind' := by
  have hread {kind : DirectiveKind} (h : (word, kind) ∈ Dialect.dart.keywords) :
      keyword? .dart word = some ((word, kind), []) :=
    keyword?_eq_some_iff.mpr ⟨h, (List.append_nil word).symm⟩
  have hsame := (hread h).symm.trans (hread h')
  exact (Prod.mk.inj (Prod.mk.inj (Option.some.inj hsame)).1).2

namespace Before

variable {word word' opening : List Char}

theorem append (h : Before word opening) (front : List Char) : Before word (front ++ opening) := by
  obtain ⟨lead, blanks, quote, hblanks, rfl⟩ := h
  exact ⟨front ++ lead, blanks, quote, hblanks, by simp⟩

/-- **The word before a URI.** -/
theorem unique (h : Before word opening) (h' : Before word' opening) (hword : word ∈ uriWords)
    (hword' : word' ∈ uriWords) : word = word' := by
  obtain ⟨lead, blanks, quote, hblanks, rfl⟩ := h
  obtain ⟨lead', blanks', quote', hblanks', hopen⟩ := h'
  obtain ⟨hne, hvisible⟩ := uriWords_visible hword
  obtain ⟨hne', hvisible'⟩ := uriWords_visible hword'
  have htrimmed := congrArg Text.trimEnd (List.append_inj_left' hopen rfl)
  rw [Text.trimEnd_word lead hne hvisible hblanks.2,
    Text.trimEnd_word lead' hne' hvisible' hblanks'.2] at htrimmed
  have hsuffix : word' <:+ lead ++ word := htrimmed ▸ List.suffix_append lead' word'
  rcases List.suffix_or_suffix_of_suffix (List.suffix_append lead word) hsuffix with hends | hends
  · exact uriWords_apart hword hword' hends
  · exact (uriWords_apart hword' hword hends).symm

end Before

/-! ### Statements of both dialects -/

namespace Written

variable {u : List Char} {r : Reading}

/-- Without a clause the keyword stands before the URI. -/
theorem before_keyword (h : Written .dart u r) :
    ∃ word, (word, r.kind) ∈ Dialect.dart.keywords ∧ Before word r.before := by
  obtain @⟨indent, word, gap, uri, kind, quote, close, -, hkeyword, -, hgap, -, -, -, -, -⟩ := h
  refine ⟨word, hkeyword, indent, gap, quote, ?_, rfl⟩
  simpa [Dialect.isGap, IsBlanks] using hgap

/-- With a clause `from` stands before the URI. -/
theorem dart_or_from (h : Written .script u r) :
    Written .dart u r ∨ Before "from".toList r.before := by
  obtain @⟨indent, word, gap, uri, kind, quote, close, hindent, hkeyword, hplain, hgap, hopen,
    hquote, huri, hne, hclose⟩ := h
  rw [Dialect.isGap, Bool.or_eq_true, Bool.and_eq_true (decide _)] at hgap
  rcases hgap with hblanks | ⟨-, hclause⟩
  · refine .inl (.intro hindent ?_ hplain ?_ hopen hquote ?_ hne hclose)
    · exact List.mem_of_mem_dropLast hkeyword
    · rw [Dialect.isGap, hblanks, Bool.true_or]
    · intro c hc
      have hquote := (Bool.or_eq_false_iff.mp (huri c hc)).1
      simpa [Dialect.endsUri] using hquote
  · obtain ⟨lead, clause, middle, trail, -, -, htrail, rfl⟩ := isClause_iff.mp hclause
    exact .inr ⟨indent ++ word ++ lead ++ clause ++ middle, trail, quote, htrail, by simp⟩

/-- What Dart has besides the statements of a script: parts, and URIs over several lines. -/
theorem script_of_dart (h : Written .dart u r) (hkind : r.kind ≠ .part) (hline : '\n' ∉ r.uri) :
    Written .script u r := by
  obtain @⟨indent, word, gap, uri, kind, quote, close, hindent, hkeyword, hplain, hgap, hopen,
    hquote, huri, hne, hclose⟩ := h
  refine .intro hindent ?_ hplain ?_ hopen hquote ?_ hne hclose
  · rcases mem_keywords_dart hkeyword with hword | hword | hword
    · exact hword ▸ List.mem_cons_self ..
    · exact hword ▸ List.mem_cons_of_mem _ (List.mem_cons_self ..)
    · exact absurd (Prod.mk.inj hword).2 hkind
  · simpa [Dialect.isGap] using Or.inl hgap
  · intro c hc
    have hfeed : c ≠ '\n' := fun hfeed => hline (hfeed ▸ hc)
    have hquote := (Bool.or_eq_false_iff.mp (huri c hc)).1
    simp [Dialect.endsUri, hquote, hfeed]

theorem script_plain (h : Written .script u r) : r.kind ≠ .part ∧ '\n' ∉ r.uri := by
  obtain @⟨indent, word, gap, uri, kind, quote, close, -, hkeyword, -, -, -, -, huri, -, -⟩ := h
  refine ⟨?_, fun hfeed => absurd (huri _ hfeed) (by simp [Dialect.endsUri])⟩
  rintro rfl
  simp [Dialect.keywords] at hkeyword

end Written

/-! ### Statements of a text -/

/-- The statement stands in the text, found or hidden. -/
def StandsIn (d : Directive) (dialect : Dialect) (s : List Char) : Prop :=
  ∃ front r, StandsBehind dialect front s r ∧
    d = ⟨r.kind, String.ofList r.uri, 1 + (front ++ r.before).count '\n'⟩

theorem standsIn_of_mem {dialect : Dialect} {s : List Char} {d : Directive}
    (hd : d ∈ ofText dialect s) : d.StandsIn dialect s := by
  obtain ⟨front, r, hstands, -, hd⟩ := exists_of_mem_scan hd
  exact ⟨front, r, hstands, hd⟩

namespace StandsIn

variable {s : List Char} {d e : Directive}

/-- It is found, or a statement that is found hides it. -/
theorem found_or_hidden {dialect : Dialect} (h : d.StandsIn dialect s) :
    d.place ∈ (ofText dialect s).map place ∨ HiddenIn (ofText dialect s) d.line := by
  obtain ⟨front, r, hstands, rfl⟩ := h
  exact hstands.found_or_hidden 1

/-- A line has one statement of Dart at most. -/
theorem eq_of_line (h : d.StandsIn .dart s) (h' : e.StandsIn .dart s) (hline : d.line = e.line) :
    d = e := by
  obtain ⟨front, r, hstands, rfl⟩ := h
  obtain ⟨front', r', hstands', rfl⟩ := h'
  have hopen := hstands.same_open hstands' (Nat.add_left_cancel hline)
  have huri := hstands.uri_eq hstands' hopen
  obtain ⟨-, u, tail, hwritten, -⟩ := hstands
  obtain ⟨-, u', tail', hwritten', -⟩ := hstands'
  obtain ⟨word, hword, hbefore⟩ := hwritten.before_keyword
  obtain ⟨word', hword', hbefore'⟩ := hwritten'.before_keyword
  obtain rfl : word = word' :=
    (hbefore.append front).unique (hopen ▸ hbefore'.append front')
      (mem_uriWords_iff.mpr (.inr ⟨_, hword⟩)) (mem_uriWords_iff.mpr (.inr ⟨_, hword'⟩))
  rw [kind_unique hword hword', huri, hopen]

/-- On a line with a statement of Dart a script has that statement only. -/
theorem dart_of_line (h : d.StandsIn .script s) (h' : e.StandsIn .dart s)
    (hline : d.line = e.line) : d.StandsIn .dart s := by
  obtain ⟨front, r, hstands, rfl⟩ := h
  obtain ⟨front', r', hstands', rfl⟩ := h'
  have hopen := hstands.same_open hstands' (Nat.add_left_cancel hline)
  obtain ⟨hstart, u, tail, hwritten, htext⟩ := hstands
  obtain ⟨-, u', tail', hwritten', -⟩ := hstands'
  rcases hwritten.dart_or_from with hdart | hfrom
  · exact ⟨front, r, ⟨hstart, u, tail, hdart, htext⟩, rfl⟩
  · obtain ⟨word, hword, hbefore⟩ := hwritten'.before_keyword
    obtain rfl : "from".toList = word :=
      (hfrom.append front).unique (hopen ▸ hbefore.append front')
        (mem_uriWords_iff.mpr (.inl rfl)) (mem_uriWords_iff.mpr (.inr ⟨_, hword⟩))
    exact absurd hword (from_not_keyword _)

theorem script_plain (h : d.StandsIn .script s) : d.kind ≠ .part ∧ '\n' ∉ d.uri.toList := by
  obtain ⟨front, r, ⟨-, u, tail, hwritten, -⟩, rfl⟩ := h
  obtain ⟨hkind, hline⟩ := hwritten.script_plain
  exact ⟨hkind, by rwa [String.toList_ofList]⟩

theorem script_of_dart (h : d.StandsIn .dart s) (hkind : d.kind ≠ .part)
    (hline : '\n' ∉ d.uri.toList) : d.StandsIn .script s := by
  obtain ⟨front, r, ⟨hstart, u, tail, hwritten, htext⟩, rfl⟩ := h
  rw [String.toList_ofList] at hline
  exact ⟨front, r, ⟨hstart, u, tail, hwritten.script_of_dart hkind hline, htext⟩, rfl⟩

/-- Nothing is hidden in a script. -/
theorem found_of_script (h : d.StandsIn .script s) : d.place ∈ (ofText .script s).map place := by
  refine h.found_or_hidden.resolve_right ?_
  rintro ⟨e, he, hfeed, -⟩
  exact (standsIn_of_mem he).script_plain.2 hfeed

end StandsIn

/-! ### The same statements in both dialects -/

/-- The imports and exports of Dart. -/
def dartImports (s : List Char) : List Directive :=
  (ofText .dart s).filter fun d => d.kind ≠ .part

/-- What a text must be like to be read alike in both dialects: no import or export has a clause,
    none a URI over several lines, and none stands on the line where the URI of a `part` ends. -/
structure ReadAlike (s : List Char) : Prop where
  plain : ∀ i ∈ ofText .script s, i.StandsIn .dart s
  inLine : ∀ d ∈ dartImports s, '\n' ∉ d.uri.toList
  apart : ∀ d ∈ ofText .dart s, d.kind = .part → ∀ i ∈ ofText .script s, i.line ≠ d.lastLine

theorem mem_dartImports_iff {s : List Char} {d : Directive} :
    d ∈ dartImports s ↔ d ∈ ofText .dart s ∧ d.kind ≠ .part := by
  simp [dartImports]

/-- Two statements of a text do not share a line, the closing quote included. -/
theorem line_ne_lastLine {dialect : Dialect} {s : List Char} {d e : Directive}
    (hd : d ∈ ofText dialect s) (he : e ∈ ofText dialect s) (hne : d ≠ e) :
    e.line ≠ d.lastLine := by
  let Apart : Directive → Directive → Prop :=
    fun d e => d.lastLine < e.line ∨ e.lastLine < d.line
  have : Std.Symm Apart := ⟨fun _ _ => Or.symm⟩
  have hapart : (ofText dialect s).Pairwise Apart := (scan_apart s).imp .inl
  have hfirst : d.line ≤ d.lastLine := Nat.le_add_right ..
  have hfirst' : e.line ≤ e.lastLine := Nat.le_add_right ..
  rcases hapart.forall hd he hne with hbelow | hbelow <;> omega

theorem readAlike_of_places {s : List Char}
    (h : (ofText .script s).map place = (dartImports s).map place) : ReadAlike s := by
  have hdart : ∀ i ∈ ofText .script s, ∃ d ∈ dartImports s, d.place = i.place := by
    intro i hi
    exact List.mem_map.mp (h ▸ List.mem_map_of_mem hi)
  refine ⟨fun i hi => ?_, fun d hd => ?_, fun d hd hpart i hi hline => ?_⟩
  · obtain ⟨d, hd, hplace⟩ := hdart i hi
    exact (standsIn_of_mem hi).dart_of_line (standsIn_of_mem (mem_dartImports_iff.mp hd).1)
      (congrArg Prod.snd hplace).symm
  · obtain ⟨i, hi, hplace⟩ := List.mem_map.mp (h ▸ List.mem_map_of_mem hd)
    rw [← show i.uri = d.uri from congrArg Prod.fst hplace]
    exact (standsIn_of_mem hi).script_plain.2
  · obtain ⟨e, he, hplace⟩ := hdart i hi
    obtain ⟨he, hkind⟩ := mem_dartImports_iff.mp he
    have hne : d ≠ e := by
      rintro rfl
      exact hkind hpart
    exact line_ne_lastLine hd he hne ((congrArg Prod.snd hplace).trans hline)

namespace ReadAlike

variable {s : List Char} (h : ReadAlike s)

include h

theorem mem_dartImports {i : Directive} (hi : i ∈ ofText .script s) : i ∈ dartImports s := by
  have hdart := h.plain i hi
  rcases hdart.found_or_hidden with hfound | ⟨d, hd, hfeed, hline⟩
  · obtain ⟨d, hd, hplace⟩ := List.mem_map.mp hfound
    obtain rfl := (standsIn_of_mem hd).eq_of_line hdart (congrArg Prod.snd hplace)
    exact mem_dartImports_iff.mpr ⟨hd, (standsIn_of_mem hi).script_plain.1⟩
  · -- what hides it is neither an import nor a part
    by_cases hpart : d.kind = .part
    · exact absurd hline.symm (h.apart d hd hpart i hi)
    · exact absurd hfeed (h.inLine d (mem_dartImports_iff.mpr ⟨hd, hpart⟩))

theorem mem_script {d : Directive} (hd : d ∈ dartImports s) : d ∈ ofText .script s := by
  obtain ⟨hmem, hkind⟩ := mem_dartImports_iff.mp hd
  have hdart := standsIn_of_mem hmem
  have hscript := hdart.script_of_dart hkind (h.inLine d hd)
  obtain ⟨i, hi, hplace⟩ := List.mem_map.mp hscript.found_of_script
  obtain rfl := (h.plain i hi).eq_of_line hdart (congrArg Prod.snd hplace)
  exact hi

theorem ofText_script : ofText .script s = dartImports s := by
  have hnodup {l : List Directive} (hl : l.Pairwise fun d e => d.line < e.line) : l.Nodup := by
    refine hl.imp ?_
    rintro d e hlt rfl
    exact Nat.lt_irrefl _ hlt
  have hscript : (ofText .script s).Pairwise fun d e => d.line < e.line := scan_increasing s
  have hdart : (dartImports s).Pairwise fun d e => d.line < e.line := (scan_increasing s).filter _
  have hperm : (ofText .script s).Perm (dartImports s) :=
    (List.perm_ext_iff_of_nodup (hnodup hscript) (hnodup hdart)).mpr
      fun d => ⟨h.mem_dartImports, h.mem_script⟩
  exact hperm.eq_of_pairwise (fun d e _ _ hlt hgt => absurd hlt (Nat.lt_asymm hgt)) hscript hdart

end ReadAlike

theorem importsOf_script {p : Path} (hp : p.extension? ≠ some "dart")
    (s : List Char) : importsOf p s = ofText .script s := by
  rw [importsOf, dialectOf, if_neg hp, List.filter_eq_self]
  intro d hd
  exact decide_eq_true (standsIn_of_mem hd).script_plain.1

/-- **Which Dart files are read as Dart.**  A file that is taken for a Dart file has the extension
    `dart` in some case.  Its imports are those of Dart, line by line, exactly when it has the
    extension in lower case or the text is the same in both dialects. -/
theorem importsOf_owned_iff {p : Path} (howned : Language.dart.owns p = true) (s : List Char) :
    ∃ e, p.extension? = some e ∧ Language.lowered e = "dart" ∧
      ((importsOf p s).map place = (dartImports s).map place ↔ e = "dart" ∨ ReadAlike s) := by
  rw [Language.owns, Option.any_eq_true] at howned
  obtain ⟨e, he, hextension⟩ := howned
  have hlowered : Language.lowered e = "dart" := by
    simpa [Language.extensions] using hextension
  refine ⟨e, he, hlowered, ?_⟩
  by_cases hexact : e = "dart"
  · rw [importsOf, dialectOf, if_pos (hexact ▸ he)]
    exact ⟨fun _ => .inl hexact, fun _ => rfl⟩
  · have hother : p.extension? ≠ some "dart" := fun hdart =>
      hexact (Option.some.inj (he.symm.trans hdart))
    rw [importsOf_script hother]
    refine ⟨fun hsame => .inr (readAlike_of_places hsame), fun halike => ?_⟩
    rw [(halike.resolve_left hexact).ofText_script]

/-- With the extension in upper case a `part` over two lines does no harm, unless an import
    stands where it ends. -/
theorem importsOf_owned_iff_upper :
    Language.dart.owns ⟨"lib/A.DART"⟩ = true ∧
      ReadAlike "import 'a.dart';\npart 'b\n.dart';\n".toList ∧
      ¬ ReadAlike "part 'b\nimport 'c.dart';\n".toList := by
  have howned : Language.dart.owns ⟨"lib/A.DART"⟩ = true := by decide
  have hupper (e : String) (he : (⟨"lib/A.DART"⟩ : Path).extension? = some e) : e ≠ "dart" := by
    rintro rfl
    exact absurd he (by decide)
  refine ⟨howned, ?_, fun halike => ?_⟩
  · obtain ⟨e, he, -, hiff⟩ := importsOf_owned_iff howned
      "import 'a.dart';\npart 'b\n.dart';\n".toList
    exact (hiff.mp (by decide)).resolve_left (hupper e he)
  · obtain ⟨e, he, -, hiff⟩ := importsOf_owned_iff howned "part 'b\nimport 'c.dart';\n".toList
    exact absurd (hiff.mpr (.inr halike)) (by decide)

/-- In a comment of a file `A.DART` an import is found that no Dart file has. -/
theorem importsOf_upper_clause :
    let text := "/*\nimport x from 'y';\n*/\n".toList
    Language.dart.owns ⟨"lib/A.DART"⟩ = true ∧
      (importsOf ⟨"lib/A.DART"⟩ text).map place = [("y", 2)] ∧ dartImports text = [] := by
  decide

end Directive

end SourceAudit
