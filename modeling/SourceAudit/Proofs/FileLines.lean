/-
  SourceAudit/Proofs/FileLines.lean
  =================================
  **One statement to a line.**

  A file is written line by line.  On a line stands a statement with whatever follows its URI,
  or other text, which no keyword begins behind its blanks (`FileLine`).  The scan finds the
  statements again, each with the number of its line:

    * blanks at the start of a line may belong to a statement further down, and it makes no
      difference to that statement and its line whether they were passed — `scan_blank`;
    * inside a line nothing starts, so other text is passed over          — `scan_filler`;
    * a statement is found and its line is passed over                    — `scan_statement`.

  `FileLine.reads_back` puts this together along the lines.  What may stand between the
  keyword and the URI of a script is said by `isClause_iff` as it is written.
-/
import SourceAudit.Proofs.StatementLines
import SourceAudit.Proofs.Trimming

namespace SourceAudit.Directive

variable {dialect : Dialect} {line : Nat}

/-! ### Clauses -/

/-- One blank or more. -/
def IsBlanks (s : List Char) : Prop := s ≠ [] ∧ ∀ c ∈ s, Text.isBlank c = true

theorem exists_ends {s : List Char} (h : 2 ≤ s.length) :
    ∃ first middle last, s = first :: (middle ++ [last]) := by
  rcases s with _ | ⟨first, rest⟩
  · cases h
  · rcases List.eq_nil_or_concat' rest with rfl | ⟨middle, last, rfl⟩
    · exact absurd h (by simp)
    · exact ⟨first, middle, last, rfl⟩

/-- The gap is read backwards. -/
theorem morf_eq : "morf".toList = "from".toList.reverse := by decide

theorem exists_of_isClause {gap : List Char} (h : isClause gap = true) :
    ∃ lead clause middle trail, IsBlanks lead ∧ IsBlanks middle ∧ IsBlanks trail ∧
      gap = lead ++ (clause ++ (middle ++ ("from".toList ++ trail))) := by
  unfold isClause at h
  split at h
  · cases h
  · next before hbefore =>
    rw [Text.afterStart?_eq_some_iff] at hbefore
    -- backwards: the blanks behind the word, the word, and what stands in front of it
    have hcut := List.takeWhile_append_dropWhile (p := Text.isBlank) (l := gap.reverse)
    have hblanks : ∀ c ∈ gap.reverse.takeWhile Text.isBlank, Text.isBlank c = true :=
      fun c hc => List.mem_takeWhile_imp hc
    generalize gap.reverse.takeWhile Text.isBlank = trail at hcut hblanks
    rw [hbefore, morf_eq] at hcut
    simp only [Bool.and_eq_true, decide_eq_true_eq] at h
    obtain ⟨⟨⟨htrail, hlength⟩, hfirst⟩, hlast⟩ := h
    obtain ⟨x, middle, y, rfl⟩ := exists_ends hlength
    have hgap : gap = [y] ++ (middle.reverse ++ ([x] ++ ("from".toList ++ trail.reverse))) := by
      rw [← List.reverse_reverse gap, ← hcut]
      simp
    have htrail' : trail.reverse ≠ [] := by
      intro hempty
      have hfrom : "from".toList = "fro".toList ++ ['m'] := by decide
      have hletter : Text.isBlank 'm' = false := by decide
      rw [hgap, hempty, hfrom] at htrail
      simp [List.getLast?_cons, List.getLast?_append, hletter] at htrail
    refine ⟨[y], middle.reverse, [x], trail.reverse, ⟨by simp, ?_⟩, ⟨by simp, ?_⟩, ⟨htrail', ?_⟩,
      hgap⟩
    · simpa [List.getLast?_cons] using hlast
    · simpa using hfirst
    · simpa using hblanks

theorem isClause_append {lead middle trail : List Char} (hlead : IsBlanks lead)
    (clause : List Char) (hmiddle : IsBlanks middle) (htrail : IsBlanks trail) :
    isClause (lead ++ (clause ++ (middle ++ ("from".toList ++ trail)))) = true := by
  obtain ⟨x, lead, rfl⟩ := List.exists_cons_of_ne_nil hlead.1
  obtain ⟨middle, y, rfl⟩ := (List.eq_nil_or_concat' middle).resolve_left hmiddle.1
  obtain ⟨trail, z, rfl⟩ := (List.eq_nil_or_concat' trail).resolve_left htrail.1
  have hx := hlead.2 x (List.mem_cons_self ..)
  have hy := hmiddle.2 y (by simp)
  have hz := htrail.2 z (by simp)
  have htrail' : ∀ c ∈ (trail ++ [z]).reverse, Text.isBlank c = true :=
    fun c hc => htrail.2 c (List.mem_reverse.mp hc)
  generalize hfront : y :: (middle.reverse ++ (clause.reverse ++ (lead.reverse ++ [x]))) = front
  have hreverse : (x :: lead ++ (clause ++ (middle ++ [y] ++
      ("from".toList ++ (trail ++ [z]))))).reverse =
        (trail ++ [z]).reverse ++ ("morf".toList ++ front) := by
    simp [← hfront, morf_eq]
  have hdrop : ("morf".toList ++ front).dropWhile Text.isBlank = "morf".toList ++ front := by
    have hmorf : "morf".toList = 'm' :: "orf".toList := by decide
    have hletter : Text.isBlank 'm' = false := by decide
    rw [hmorf, List.cons_append, List.dropWhile_cons, hletter]
    rfl
  rw [isClause, hreverse, List.dropWhile_append_of_pos htrail', hdrop,
    Text.afterStart?_eq_some_iff.mpr rfl]
  simp only [Bool.and_eq_true, decide_eq_true_eq, ← hfront]
  refine ⟨⟨⟨?_, ?_⟩, ?_⟩, ?_⟩
  · simp [List.getLast?_cons, List.getLast?_append, hz]
  · simp only [List.length_cons, List.length_append]
    omega
  · simp [hy]
  · simp [List.getLast?_cons, List.getLast?_append, hx]

/-- A clause stands between blanks, and the word `from` with blanks behind it closes it. -/
theorem isClause_iff {gap : List Char} : isClause gap = true ↔
    ∃ lead clause middle trail, IsBlanks lead ∧ IsBlanks middle ∧ IsBlanks trail ∧
      gap = lead ++ (clause ++ (middle ++ ("from".toList ++ trail))) := by
  constructor
  · exact exists_of_isClause
  · rintro ⟨lead, clause, middle, trail, hlead, hmiddle, htrail, rfl⟩
    exact isClause_append hlead clause hmiddle htrail

/-! ### Blanks in front -/

theorem readStatement?_blank {c : Char} (hc : Text.isBlank c = true) (s : List Char) :
    readStatement? dialect (c :: s) =
      (readStatement? dialect s).map fun r => { r with before := c :: r.before } := by
  simp only [readStatement?, List.takeWhile_cons, List.dropWhile_cons, hc, if_true]
  cases keyword? dialect (s.dropWhile Text.isBlank) with
  | none => rfl
  | some k =>
    simp only [Option.bind_eq_bind, Option.bind_some]
    split
    · rfl
    · split
      · rfl
      · split <;> rfl

/-! ### Steps of the scan -/

theorem scan_read {c : Char} {rest : List Char} {r : Reading}
    (hread : readStatement? dialect (c :: rest) = some r) :
    scan dialect 0 line true (c :: rest) =
      ⟨r.kind, String.ofList r.uri, line + r.before.count '\n'⟩ ::
        scan dialect (r.length - 1) (if c = '\n' then line + 1 else line) (c = '\n') rest := by
  rw [scan, if_pos rfl, hread]

/-- A statement is told, and the scan goes on in the line of its closing quote. -/
theorem scan_eq_cons (line : Nat) {s : List Char} {r : Reading}
    (hread : readStatement? dialect s = some r) :
    ∃ close tail, s = r.before ++ r.uri ++ close :: tail ∧
      scan dialect 0 line true s = ⟨r.kind, String.ofList r.uri, line + r.before.count '\n'⟩ ::
        scan dialect 0 (line + (r.before ++ r.uri).count '\n') false tail := by
  cases s with
  | nil => cases dialect <;> cases hread
  | cons c rest =>
    obtain ⟨close, tail, -, htext, hscan⟩ := scan_behind line (c = '\n') hread
    exact ⟨close, tail, htext, by rw [scan_read hread, hscan]⟩

theorem scan_unread {fresh : Bool} {c : Char} {rest : List Char}
    (hread : readStatement? dialect (c :: rest) = none) :
    scan dialect 0 line fresh (c :: rest) =
      scan dialect 0 (if c = '\n' then line + 1 else line) (c = '\n') rest := by
  rw [scan, hread, ite_self]

/-- A blank at the start of a line may be passed over; the next place is still as good as the
    start of one. -/
theorem scan_blank {c : Char} (hc : Text.isBlank c = true) (s : List Char) :
    scan dialect 0 line true (c :: s) =
      scan dialect 0 (if c = '\n' then line + 1 else line) true s := by
  have hblank : readStatement? dialect (c :: s) =
      (readStatement? dialect s).map fun r => { r with before := c :: r.before } :=
    readStatement?_blank hc s
  cases s with
  | nil =>
    have hnone : readStatement? dialect [] = none := by cases dialect <;> rfl
    rw [hnone] at hblank
    rw [scan_unread hblank, scan, scan]
  | cons d rest =>
    cases hread : readStatement? dialect (d :: rest) with
    | none =>
      rw [hread] at hblank
      rw [scan_unread hblank, scan_unread hread, scan_unread hread]
    | some r =>
      rw [hread, Option.map_some] at hblank
      have hlength : (Reading.mk r.kind (c :: r.before) r.uri).length - 1 = r.length - 1 + 1 := by
        simp only [Reading.length, List.length_cons]
        omega
      rw [scan_read hblank, scan_read hread, hlength, scan, next_add_count]

theorem scan_blanks {front : List Char} (hfront : ∀ c ∈ front, Text.isBlank c = true)
    (s : List Char) : scan dialect 0 line true (front ++ s) =
      scan dialect 0 (line + front.count '\n') true s := by
  induction front generalizing line with
  | nil => rfl
  | cons c front ih =>
    obtain ⟨hc, hfront⟩ := List.forall_mem_cons.mp hfront
    rw [List.cons_append, scan_blank hc, ih hfront, next_add_count]

/-- Inside a line nothing is found until it ends. -/
theorem scan_inside {front : List Char} (hfront : '\n' ∉ front) (s : List Char) :
    scan dialect 0 line false (front ++ '\n' :: s) = scan dialect 0 (line + 1) true s := by
  induction front with
  | nil => simp [scan]
  | cons c front ih =>
    rw [List.mem_cons, not_or] at hfront
    obtain ⟨hc, hfront⟩ := hfront
    simp [scan, Ne.symm hc, ih hfront]

/-! ### Lines -/

theorem visible_of_mem_keywords {k : List Char × DirectiveKind} (hk : k ∈ dialect.keywords) :
    ∀ c ∈ k.1, Text.isBlank c = false := by
  rcases mem_keywords_dart hk with rfl | rfl | rfl
  · exact Text.visible_of_all (by decide)
  · exact Text.visible_of_all (by decide)
  · exact Text.visible_of_all (by decide)

/-- A statement on a line of its own: blanks, a keyword, blanks, in a script perhaps a clause
    with ` from ` behind it, a URI between quotes, and any rest. -/
structure StatementLine (dialect : Dialect) where
  indent : List Char
  keyword : List Char × DirectiveKind
  blanks : List Char
  clause : Option (List Char)
  quote : Char
  uri : List Char
  close : Char
  rest : List Char
  indent_blank : ∀ c ∈ indent, Text.isBlank c = true ∧ c ≠ '\n'
  keyword_mem : keyword ∈ dialect.keywords
  blanks_ne : blanks ≠ []
  blanks_blank : ∀ c ∈ blanks, Text.isBlank c = true ∧ c ≠ '\n'
  clause_script : clause.isSome → dialect = .script
  clause_plain : ∀ text ∈ clause, ∀ c ∈ text, isQuote c = false ∧ c ≠ ';' ∧ c ≠ '\n'
  quote_isQuote : isQuote quote = true
  uri_ne : uri ≠ []
  uri_plain : ∀ c ∈ uri, isQuote c = false ∧ c ≠ '\n'
  close_isQuote : isQuote close = true
  rest_line : '\n' ∉ rest

namespace StatementLine

variable (s : StatementLine dialect)

/-- What stands between keyword and URI. -/
def gap : List Char := s.blanks ++ (s.clause.map (· ++ " from ".toList)).getD []

def before : List Char := s.indent ++ s.keyword.1 ++ s.gap ++ [s.quote]

def text : List Char := s.before ++ s.uri ++ s.close :: s.rest

theorem isGap : dialect.isGap s.gap = true := by
  unfold Dialect.isGap gap
  have hblanks : IsBlanks s.blanks := ⟨s.blanks_ne, fun c hc => (s.blanks_blank c hc).1⟩
  have hspace : IsBlanks [' '] := ⟨by decide, List.forall_mem_singleton.mpr (by decide)⟩
  cases hclause : s.clause with
  | none =>
    simp [hblanks.1, List.all_eq_true.mpr hblanks.2]
  | some clause =>
    have hscript : dialect = .script := s.clause_script (by rw [hclause]; rfl)
    have hgap : isClause (s.blanks ++ (clause ++ " from ".toList)) = true :=
      isClause_append hblanks clause hspace hspace
    simp only [Option.map_some, Option.getD_some, Bool.or_eq_true, Bool.and_eq_true,
      decide_eq_true_eq]
    exact .inr ⟨hscript, hgap⟩

theorem mem_gap {c : Char} (hc : c ∈ s.gap) : isQuote c = false ∧ c ≠ ';' ∧ c ≠ '\n' := by
  rcases List.mem_append.mp hc with hblank | hclause
  · obtain ⟨hblank, hfeed⟩ := s.blanks_blank c hblank
    refine ⟨not_isQuote_of_isBlank hblank, ?_, hfeed⟩
    rintro rfl
    exact absurd hblank (by decide)
  · cases hsome : s.clause with
    | none =>
      rw [hsome] at hclause
      cases hclause
    | some clause =>
      rw [hsome, Option.map_some, Option.getD_some, List.mem_append] at hclause
      rcases hclause with hplain | hfrom
      · exact s.clause_plain clause hsome c hplain
      · have hword : " from ".toList.all (fun d => !isQuote d && d != ';' && d != '\n') = true := by
          decide
        simpa [and_assoc] using List.all_eq_true.mp hword c hfrom

theorem written :
    Written dialect (s.before ++ s.uri ++ [s.close]) ⟨s.keyword.2, s.before, s.uri⟩ := by
  have huri : ∀ c ∈ s.uri, dialect.endsUri c = false := by
    intro c hc
    obtain ⟨hquote, hfeed⟩ := s.uri_plain c hc
    simp [Dialect.endsUri, hquote, hfeed]
  have htext : s.before ++ s.uri ++ [s.close] =
      s.indent ++ (s.keyword.1 ++ (s.gap ++ s.quote :: (s.uri ++ [s.close]))) := by
    simp [before]
  rw [htext]
  exact .intro (fun c hc => (s.indent_blank c hc).1) s.keyword_mem
    (fun c hc => (s.mem_gap hc).1) s.isGap (fun hc => (s.mem_gap hc).2.1 rfl) s.quote_isQuote huri
    s.uri_ne s.close_isQuote

theorem feed_not_mem_before : '\n' ∉ s.before ++ s.uri := by
  simp only [before, List.mem_append, List.mem_singleton, not_or]
  refine ⟨⟨⟨⟨?_, ?_⟩, ?_⟩, ?_⟩, ?_⟩
  · exact fun hc => (s.indent_blank _ hc).2 rfl
  · exact fun hc => absurd (visible_of_mem_keywords s.keyword_mem _ hc) (by decide)
  · exact fun hc => (s.mem_gap hc).2.2 rfl
  · exact (ne_newline_of_isQuote s.quote_isQuote).symm
  · exact fun hc => (s.uri_plain _ hc).2 rfl

theorem read (tail : List Char) :
    readStatement? dialect (s.text ++ tail) = some ⟨s.keyword.2, s.before, s.uri⟩ := by
  refine readStatement?_eq_some_iff.mpr ⟨_, s.written, s.rest ++ tail, ?_⟩
  simp [text]

end StatementLine

/-- A line of a file: a statement, or other text that no keyword begins. -/
inductive FileLine (dialect : Dialect) where
  | statement (s : StatementLine dialect)
  | filler (text : List Char) (line : '\n' ∉ text)
      (other : ∀ k ∈ dialect.keywords, ¬ k.1 <+: Text.trim text)

namespace FileLine

def text : FileLine dialect → List Char
  | .statement s => s.text
  | .filler text _ _ => text

/-- The statement on a line, with the number of the line. -/
def directive? (number : Nat) : FileLine dialect → Option Directive
  | .statement s => some ⟨s.keyword.2, String.ofList s.uri, number⟩
  | .filler _ _ _ => none

/-- The file, in which every line ends with a line feed. -/
def joined (lines : List (FileLine dialect)) : List Char :=
  lines.flatMap fun l => l.text ++ ['\n']

/-- The statements of the lines, which are counted from `first`. -/
def directives (first : Nat) (lines : List (FileLine dialect)) : List Directive :=
  (lines.zipIdx first).filterMap fun l => l.1.directive? l.2

/-- A text that no keyword begins holds no statement in its first line. -/
theorem readStatement?_filler {c : Char} {text : List Char} (hc : Text.isBlank c = false)
    (hother : ∀ k ∈ dialect.keywords, ¬ k.1 <+: c :: text) (tail : List Char) :
    readStatement? dialect (c :: text ++ '\n' :: tail) = none := by
  have hkeyword : keyword? dialect (c :: text ++ '\n' :: tail) = none := by
    rw [Option.eq_none_iff_forall_ne_some]
    rintro ⟨k, rest⟩ hk
    obtain ⟨hmem, hrest⟩ := keyword?_eq_some_iff.mp hk
    have hstart : k.1 <+: c :: text ++ '\n' :: tail := ⟨rest, hrest.symm⟩
    -- a keyword that reaches beyond the line would hold a line feed
    rcases List.prefix_or_prefix_of_prefix hstart (List.prefix_append ..) with hinside | hbeyond
    · exact hother k hmem hinside
    · obtain ⟨more, hmore⟩ := hbeyond
      rw [← hmore, List.prefix_append_right_inj] at hstart
      cases more with
      | nil =>
        rw [List.append_nil] at hmore
        exact hother k hmem (hmore ▸ List.prefix_rfl)
      | cons d more =>
        obtain rfl := (List.cons_prefix_cons.mp hstart).1
        have hfeed : '\n' ∈ k.1 := hmore ▸ List.mem_append_right _ (List.mem_cons_self ..)
        exact absurd (visible_of_mem_keywords hmem _ hfeed) (by decide)
  rw [readStatement?, List.cons_append, List.dropWhile_cons, hc]
  rw [List.cons_append] at hkeyword
  simp only [Bool.false_eq_true, if_false, hkeyword]
  rfl

theorem scan_filler {text : List Char} (hline : '\n' ∉ text)
    (hother : ∀ k ∈ dialect.keywords, ¬ k.1 <+: Text.trim text) (tail : List Char) :
    scan dialect 0 line true (text ++ '\n' :: tail) = scan dialect 0 (line + 1) true tail := by
  obtain ⟨front, hfront, hcut⟩ := Text.exists_blanks text
  have hnone : front.count '\n' = 0 := by
    rw [List.count_eq_zero]
    intro hfeed
    exact hline (hcut ▸ List.mem_append_left _ hfeed)
  rw [hcut, List.append_assoc, scan_blanks hfront, hnone, Nat.add_zero]
  cases hmore : Text.trimStart text with
  | nil =>
    rw [List.nil_append, scan_blank (by decide), if_pos rfl]
  | cons c more =>
    have hc : Text.isBlank c = false := (dropWhile_eq_cons hmore).2.1
    have hfeed : '\n' ∉ c :: more := by
      rw [← hmore]
      intro hfeed
      exact hline (hcut ▸ List.mem_append_right _ hfeed)
    have hunread : readStatement? dialect (c :: more ++ '\n' :: tail) = none := by
      refine readStatement?_filler hc ?_ tail
      intro k hk hstart
      rw [← hmore, ← Text.prefix_trim_iff (visible_of_mem_keywords hk)] at hstart
      exact hother k hk hstart
    rw [List.mem_cons, not_or] at hfeed
    rw [List.cons_append] at hunread ⊢
    rw [scan_unread hunread, if_neg (Ne.symm hfeed.1), decide_eq_false (Ne.symm hfeed.1),
      scan_inside hfeed.2]

theorem scan_statement (s : StatementLine dialect) (tail : List Char) :
    scan dialect 0 line true (s.text ++ '\n' :: tail) =
      ⟨s.keyword.2, String.ofList s.uri, line⟩ :: scan dialect 0 (line + 1) true tail := by
  have hread := s.read ('\n' :: tail)
  have hnone : (s.before ++ s.uri).count '\n' = 0 := List.count_eq_zero.mpr s.feed_not_mem_before
  have hnone' : s.before.count '\n' = 0 := by
    rw [List.count_append] at hnone
    exact Nat.eq_zero_of_add_eq_zero_right hnone
  obtain ⟨close, behind, hcut, hscan⟩ := scan_eq_cons line hread
  -- what stands behind the statement is the rest of its line and the text behind that
  have hbehind : behind = s.rest ++ '\n' :: tail := by
    rw [StatementLine.text, List.append_assoc (s.before ++ s.uri),
      List.append_cancel_left_eq] at hcut
    exact (List.cons.inj hcut).2.symm
  rw [hscan, hnone, hnone', Nat.add_zero, hbehind, scan_inside s.rest_line]

theorem scan_joined (lines : List (FileLine dialect)) :
    scan dialect 0 line true (joined lines) = directives line lines := by
  induction lines generalizing line with
  | nil => rw [joined, List.flatMap_nil, scan, directives, List.zipIdx_nil, List.filterMap_nil]
  | cons l rest ih =>
    have hjoined : joined (l :: rest) = l.text ++ '\n' :: joined rest := by
      simp [joined]
    rw [hjoined, directives, List.zipIdx_cons]
    cases l with
    | statement s =>
      rw [text, scan_statement, ih]
      rfl
    | filler text hline hother =>
      rw [FileLine.text, scan_filler hline hother, ih]
      rfl

/-- **One statement to a line.**  From a file in which every line is a statement or does not
    begin with a keyword, the statements are read back in order, each with the number of its
    line: the imports and exports of every file, and all statements of a Dart file. -/
theorem reads_back :
    (∀ (p : Path) (lines : List (FileLine (dialectOf p))),
      importsOf p (joined lines) = (directives 1 lines).filter fun d => d.kind ≠ .part) ∧
    ∀ lines : List (FileLine .dart), ofText .dart (joined lines) = directives 1 lines := by
  refine ⟨fun p lines => ?_, fun lines => scan_joined lines⟩
  rw [importsOf, ofText, scan_joined]

/-- Below a line that holds a tab only stands an import with a clause. -/
example :
    let lines : List (FileLine .script) :=
      [.filler ['\t'] (by decide) (by decide),
        .statement
          { indent := [' '], keyword := ("import".toList, .imports), blanks := [' ']
            clause := some ['a'], quote := '"', uri := ['.', '/', 'b'], close := '"'
            rest := "; import 'c'".toList
            indent_blank := List.forall_mem_singleton.mpr (by decide)
            keyword_mem := by decide
            blanks_ne := by decide
            blanks_blank := List.forall_mem_singleton.mpr (by decide)
            clause_script := fun _ => rfl
            clause_plain := by simp [isQuote]
            quote_isQuote := by decide
            uri_ne := by decide
            uri_plain := by simp [isQuote]
            close_isQuote := by decide
            rest_line := by decide }]
    joined lines = "\t\n import a from \"./b\"; import 'c'\n".toList ∧
      directives 1 lines = [⟨.imports, "./b", 2⟩] := by
  decide

end FileLine

end SourceAudit.Directive
