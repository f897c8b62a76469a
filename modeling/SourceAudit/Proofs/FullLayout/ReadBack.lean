/-
  SourceAudit/Proofs/FullLayout/ReadBack.lean
  ===========================================
  **The full layout can be read back.**

  Without line feeds in the texts of the violations, the text of the layout is cut into the
  lines it was made of (`segments_ofLines`), and each is read as what it was written for: a
  number between two texts (`number?_written`), an entry with or without a magnitude
  (`readEntry?_written`), a section with as many entries as its heading says
  (`readSection?_written`), or none where something else stands (`readSection?_absent`).  The
  sections hold the violations sorted by severity, because a stable sort by few keys is the
  list of its groups (`bySeverity_eq`).

    * `full_layout_reads_back`: the whole text.
-/
import SourceAudit.Proofs.FullLayout.Reader
import Mathlib.Data.List.Basic

namespace SourceAudit

/-! ### Texts without line feeds -/

def Unbroken (s : String) : Prop := '\n' ∉ s.toList

instance (s : String) : Decidable (Unbroken s) := inferInstanceAs (Decidable (_ ∉ _))

theorem Unbroken.append {s t : String} (hs : Unbroken s) (ht : Unbroken t) :
    Unbroken (s ++ t) := by
  rw [Unbroken, String.toList_append, List.mem_append, not_or]
  exact ⟨hs, ht⟩

theorem isDigit_of_mem_number {n : Nat} {c : Char} (hc : c ∈ Nat.toDigits 10 n) :
    c.isDigit = true :=
  Nat.isDigit_of_mem_toDigits (by decide) (by decide) hc

theorem unbroken_number (n : Nat) : Unbroken (toString n) := by
  intro hfeed
  rw [Nat.toString_eq_repr, Nat.toList_repr] at hfeed
  exact absurd (isDigit_of_mem_number hfeed) (by decide)

namespace Binary64

theorem mem_positional {d : Decimal} {c : Char} (hc : c ∈ d.positional "") :
    c.isDigit = true ∨ c = '.' := by
  have hdigits {c : Char} (hc : c ∈ digitsOf d.digits) : c.isDigit = true :=
    isDigit_of_mem_number hc
  have hzeros {k : Nat} {c : Char} (hc : c ∈ List.replicate k '0') : c.isDigit = true := by
    rw [List.eq_of_mem_replicate hc]
    rfl
  rw [Decimal.positional] at hc
  dsimp only at hc
  split at hc
  · have hc : c ∈ digitsOf d.digits ++ List.replicate d.power.toNat '0' := by simpa using hc
    rcases List.mem_append.mp hc with hc | hc
    · exact .inl (hdigits hc)
    · exact .inl (hzeros hc)
  · split at hc
    · rcases List.mem_append.mp hc with hc | hc
      · exact .inl (hdigits (List.mem_of_mem_take hc))
      · rcases List.mem_cons.mp hc with rfl | hc
        · exact .inr rfl
        · exact .inl (hdigits (List.mem_of_mem_drop hc))
    · rcases List.mem_append.mp hc with hc | hc
      · rcases List.mem_cons.mp hc with rfl | hc
        · exact .inl rfl
        · rcases List.mem_cons.mp hc with rfl | hc
          · exact .inr rfl
          · exact .inl (hzeros hc)
      · exact .inl (hdigits hc)

theorem unbroken_plainText (x : Binary64) : Unbroken x.plainText := by
  have hfinite : '\n' ∉ finiteText plainStyle x := by
    have hbody : '\n' ∉ (shortest .upward x).positional "" := by
      intro hfeed
      exact absurd (mem_positional hfeed) (by decide)
    simp only [finiteText, plainStyle, Option.all_none, Bool.and_self, if_true]
    split
    · simpa using hbody
    · exact hbody
  rw [plainText]
  split
  · decide
  split
  · split <;> decide
  · rwa [Unbroken, String.toList_ofList]

end Binary64

/-- The texts of a violation stand on one line each. -/
def Violation.OnOneLine (v : Violation) : Prop :=
  Unbroken v.file ∧ Unbroken v.rule ∧ Unbroken v.message

instance (v : Violation) : Decidable v.OnOneLine := inferInstanceAs (Decidable (_ ∧ _))

namespace Report

/-! ### Lines of a text -/

/-- The lines as lists of characters. -/
def asRead (lines : List String) : List Line := lines.map String.toList

theorem asRead_append (front back : List String) :
    asRead (front ++ back) = asRead front ++ asRead back :=
  List.map_append

/-- Lines without line feeds are found again, and nothing behind the last of them. -/
theorem segments_ofLines {lines : List String} (hlines : ∀ line ∈ lines, Unbroken line) :
    Text.segments '\n' (ofLines lines).toList = asRead lines ++ [[]] := by
  induction lines with
  | nil => rfl
  | cons line rest ih =>
    obtain ⟨hline, hrest⟩ := List.forall_mem_cons.mp hlines
    have htext : (ofLines (line :: rest)).toList =
        line.toList ++ '\n' :: (ofLines rest).toList := by
      simp [ofLines, String.toList_append, String.join_cons]
    rw [htext, Text.segments_append, Text.segments_of_not_mem hline, ih hrest]
    rfl

/-! ### Numbers and labels -/

theorem labelled?_written (label text : String) :
    labelled? label (label ++ text).toList = some text := by
  have hstart := Text.afterStart?_eq_some_iff.mpr (String.toList_append (s := label) (t := text))
  rw [labelled?, hstart, Option.map_some, String.ofList_toList]

/-- What is read of a number is the number, when no digit follows it. -/
theorem number?_written (front back : String) (n : Nat) (rest : Line)
    (hend : (back.toList ++ rest).head?.all (fun c => !c.isDigit) = true) :
    number? front back (front.toList ++ ((toString n).toList ++ (back.toList ++ rest))) =
      some (n, rest) := by
  have hdigits : ∀ c ∈ Nat.toDigits 10 n, c.isDigit = true := fun c hc =>
    isDigit_of_mem_number hc
  have hstop : (back.toList ++ rest).takeWhile Char.isDigit = [] ∧
      (back.toList ++ rest).dropWhile Char.isDigit = back.toList ++ rest := by
    cases hbehind : back.toList ++ rest with
    | nil => exact ⟨rfl, rfl⟩
    | cons c tail =>
      rw [hbehind] at hend
      have hc : c.isDigit = false := by simpa using hend
      simp [hc]
  have hvalue : Binary64.digitsValue (Nat.toDigits 10 n) = n := Nat.ofDigitChars_ten_toDigits
  rw [number?, Text.afterStart?_eq_some_iff.mpr rfl, Nat.toString_eq_repr, Nat.toList_repr]
  simp only [Option.bind_eq_bind, Option.bind_some]
  rw [List.dropWhile_append_of_pos hdigits, List.takeWhile_append_of_pos hdigits, hstop.1,
    hstop.2, Text.afterStart?_eq_some_iff.mpr rfl, List.append_nil, hvalue]
  rfl

theorem onlyNumber?_written (front back : String) (n : Nat)
    (hend : back.toList.head?.all (fun c => !c.isDigit) = true) :
    onlyNumber? front back (front ++ toString n ++ back).toList = some n := by
  have hread := number?_written front back n [] (by rwa [List.append_nil])
  rw [List.append_nil] at hread
  rw [onlyNumber?, String.toList_append, String.toList_append, List.append_assoc, hread]

/-! ### Entries -/

theorem ofLabel?_label (severity : Severity) :
    Severity.ofLabel? severity.label = some severity := by
  cases severity <;> decide

theorem readMagnitude_written (magnitude : Option Binary64) (message : String)
    (rest : List Line) :
    readMagnitude (asRead (magnitude.elim [] fun x => [s!"    Magnitude: {x.plainText}"]) ++
        (s!"    Message: {message}").toList :: rest) =
      (magnitude.map Binary64.plainText, (s!"    Message: {message}").toList :: rest) := by
  cases magnitude with
  | none =>
    have hother : labelled? "    Magnitude: " (s!"    Message: {message}").toList = none := by
      have hlabels : Text.afterStart? "    Magnitude: ".toList
          ("    Message: ".toList ++ message.toList) = none := rfl
      change ((Text.afterStart? _ ("    Message: " ++ message).toList).map _) = none
      rw [String.toList_append, hlabels, Option.map_none]
    change readMagnitude ((s!"    Message: {message}").toList :: rest) = _
    rw [readMagnitude, hother]
    rfl
  | some x =>
    have hhere := labelled?_written "    Magnitude: " x.plainText
    change readMagnitude (("    Magnitude: " ++ x.plainText).toList :: _) = _
    rw [readMagnitude, hhere]
    rfl

/-- An entry is read from its own lines. -/
theorem readEntry?_written (v : Violation) (rest : List Line) :
    readEntry? (asRead (fullEntry v) ++ rest) = some (Entry.ofViolation v, rest) := by
  have hlines : asRead (fullEntry v) ++ rest =
      ("  " ++ v.file).toList :: ("    Rule: " ++ v.rule).toList ::
        ("    Severity: " ++ v.severity.label).toList ::
        (asRead (v.magnitude.elim [] fun x => [s!"    Magnitude: {x.plainText}"]) ++
          (s!"    Message: {v.message}").toList :: [] :: rest) := by
    simp only [fullEntry, asRead_append, List.append_assoc]
    rfl
  have hmessage : labelled? "    Message: " (s!"    Message: {v.message}").toList =
      some v.message := labelled?_written "    Message: " v.message
  rw [hlines, readEntry?, labelled?_written, labelled?_written, labelled?_written,
    readMagnitude_written]
  simp only [Option.bind_eq_bind, Option.bind_some, ofLabel?_label, readMessage?, hmessage,
    Option.map_some]
  rfl

theorem readEntries?_written (violations : List Violation) (rest : List Line) :
    readEntries? violations.length (asRead (violations.flatMap fullEntry) ++ rest) =
      some (violations.map Entry.ofViolation, rest) := by
  induction violations with
  | nil => rfl
  | cons v more ih =>
    rw [List.flatMap_cons, asRead_append, List.append_assoc, List.length_cons, readEntries?,
      readEntry?_written]
    simp only [Option.bind_eq_bind, Option.bind_some]
    rw [ih]
    rfl

/-! ### Sections -/

theorem headingCount?_here (severity : Severity) (count : Nat) :
    headingCount? severity (s!"{severity.title} ({count}):").toList = some count :=
  onlyNumber?_written (severity.title ++ " (") "):" count (by decide)

/-- The first letter tells the headings apart. -/
theorem headingCount?_other {severity other : Severity} (hother : severity ≠ other)
    (count : Nat) :
    headingCount? severity (s!"{other.title} ({count}):").toList = none := by
  have hstart (rest : Line) :
      Text.afterStart? (severity.title ++ " (").toList ((other.title ++ " (").toList ++ rest) =
        none := by
    cases severity <;> cases other <;> first | exact absurd rfl hother | rfl
  have hline : (s!"{other.title} ({count}):").toList =
      (other.title ++ " (").toList ++ ((toString count).toList ++ "):".toList) := by
    rw [← List.append_assoc, ← String.toList_append, ← String.toList_append]
    rfl
  rw [hline, headingCount?, onlyNumber?, number?, hstart]
  rfl

theorem headingCount?_separator (severity : Severity) :
    headingCount? severity separator.toList = none := by
  cases severity <;> decide +kernel

/-- Nothing here begins with the heading of a section. -/
def LacksHeading (severity : Severity) (lines : List Line) : Prop :=
  ∀ line ∈ lines.head?, headingCount? severity line = none

theorem readSection?_absent {severity : Severity} {lines : List Line}
    (hlacks : LacksHeading severity lines) : readSection? severity lines = some ([], lines) := by
  cases lines with
  | nil => rfl
  | cons heading rest =>
    have hheading : headingCount? severity heading = none := hlacks heading rfl
    rw [readSection?, hheading]

variable (r : Report)

/-- The sections of some severities with the line of the next section or of the end behind. -/
def sectionLines (severities : List Severity) (rest : List Line) : List Line :=
  asRead (severities.flatMap (r.severitySection .plain fullEntry)) ++ separator.toList :: rest

theorem sectionLines_cons_nil {severity : Severity} (hnone : r.ofSeverity severity = [])
    (more : List Severity) (rest : List Line) :
    r.sectionLines (severity :: more) rest = r.sectionLines more rest := by
  rw [sectionLines, List.flatMap_cons, severitySection, hnone]
  rfl

theorem sectionLines_cons {severity : Severity} (hsome : r.ofSeverity severity ≠ [])
    (more : List Severity) (rest : List Line) :
    r.sectionLines (severity :: more) rest =
      (s!"{severity.title} ({(r.ofSeverity severity).length}):").toList :: separator.toList ::
        (asRead ((r.ofSeverity severity).flatMap fullEntry) ++ r.sectionLines more rest) := by
  have hsection : r.severitySection .plain fullEntry severity =
      s!"{severity.title} ({(r.ofSeverity severity).length}):" :: separator ::
        (r.ofSeverity severity).flatMap fullEntry := by
    rw [severitySection]
    split
    · next hnone => exact absurd hnone hsome
    · rfl
  rw [sectionLines, List.flatMap_cons, hsection, asRead_append, List.append_assoc]
  rfl

theorem lacksHeading_sectionLines {severity : Severity} {severities : List Severity}
    (hother : severity ∉ severities) (rest : List Line) :
    LacksHeading severity (r.sectionLines severities rest) := by
  induction severities with
  | nil =>
    rintro line ⟨⟩
    exact headingCount?_separator severity
  | cons other more ih =>
    rw [List.mem_cons, not_or] at hother
    by_cases hnone : r.ofSeverity other = []
    · rw [sectionLines_cons_nil r hnone]
      exact ih hother.2
    · rw [sectionLines_cons r hnone]
      rintro line ⟨⟩
      exact headingCount?_other hother.1 _

/-- Every section is read where it stands, and one that is missing as empty. -/
theorem readSections?_written {severities : List Severity} (hdistinct : severities.Nodup)
    (rest : List Line) :
    readSections? severities (r.sectionLines severities rest) =
      some ((severities.flatMap r.ofSeverity).map Entry.ofViolation,
        separator.toList :: rest) := by
  induction severities with
  | nil => rfl
  | cons severity more ih =>
    obtain ⟨hnew, hmore⟩ := List.nodup_cons.mp hdistinct
    rw [readSections?]
    by_cases hnone : r.ofSeverity severity = []
    · rw [sectionLines_cons_nil r hnone, readSection?_absent (r.lacksHeading_sectionLines hnew _)]
      simp only [Option.bind_eq_bind, Option.bind_some]
      rw [ih hmore, List.flatMap_cons, hnone]
      rfl
    · rw [sectionLines_cons r hnone, readSection?, headingCount?_here]
      simp only [List.tail_cons, readEntries?_written, Option.bind_eq_bind, Option.bind_some]
      rw [ih hmore, List.flatMap_cons, List.map_append]
      rfl

/-! ### Sorting by severity -/

theorem asSevere_trans (u v w : Violation) (huv : asSevere u v = true)
    (hvw : asSevere v w = true) : asSevere u w = true := by
  rw [asSevere, decide_eq_true_eq] at huv hvw ⊢
  exact Nat.le_trans hvw huv

theorem asSevere_total (v w : Violation) : (asSevere v w || asSevere w v) = true := by
  rw [Bool.or_eq_true, asSevere, asSevere, decide_eq_true_eq, decide_eq_true_eq]
  exact Nat.le_total _ _

theorem filter_bySeverity (severity : Severity) :
    r.bySeverity.filter (fun v => v.severity = severity) = r.ofSeverity severity := by
  have hperm : r.bySeverity.Perm r.violations := List.mergeSort_perm ..
  have hordered : (r.ofSeverity severity).Pairwise fun v w => asSevere v w = true := by
    rw [List.pairwise_iff_forall_sublist]
    intro v w hvw
    have hv := (List.mem_filter.mp (hvw.subset (by simp : v ∈ [v, w]))).2
    have hw := (List.mem_filter.mp (hvw.subset (by simp : w ∈ [v, w]))).2
    rw [decide_eq_true_eq] at hv hw
    rw [asSevere, decide_eq_true_eq]
    exact Nat.le_of_eq (congrArg Severity.rank (hw.trans hv.symm))
  have hstable : (r.ofSeverity severity).Sublist r.bySeverity :=
    List.sublist_mergeSort asSevere_trans asSevere_total hordered List.filter_sublist
  have hsublist := hstable.filter fun v => decide (v.severity = severity)
  rw [ofSeverity, List.filter_filter] at hsublist
  simp only [Bool.and_self] at hsublist
  exact (hsublist.eq_of_length (hperm.filter _).length_eq.symm).symm

/-- A list in descending order of severity is its errors, its warnings and its infos. -/
theorem eq_groups {violations : List Violation}
    (hsorted : violations.Pairwise fun v w => w.severity.rank ≤ v.severity.rank) :
    violations = Severity.all.flatMap fun severity =>
      violations.filter fun v => v.severity = severity := by
  induction violations with
  | nil => rfl
  | cons v rest ih =>
    obtain ⟨hfirst, hrest⟩ := List.pairwise_cons.mp hsorted
    have hnone (severity : Severity) (hmore : v.severity.rank < severity.rank) :
        rest.filter (fun w => w.severity = severity) = [] := by
      rw [List.filter_eq_nil_iff]
      intro w hw
      rw [decide_eq_true_eq]
      rintro rfl
      exact absurd (hfirst w hw) (Nat.not_le.mpr hmore)
    have hgroups := ih hrest
    simp only [Severity.all, List.flatMap_cons, List.flatMap_nil, List.append_nil] at hgroups ⊢
    -- the groups in front of that of `v` are empty
    cases hv : v.severity with
    | error =>
      simp only [List.filter_cons, hv]
      exact congrArg (v :: ·) hgroups
    | warning =>
      have herrors := hnone .error (by rw [hv]; decide)
      rw [herrors] at hgroups
      simp only [List.filter_cons, hv, herrors]
      exact congrArg (v :: ·) hgroups
    | info =>
      have herrors := hnone .error (by rw [hv]; decide)
      have hwarnings := hnone .warning (by rw [hv]; decide)
      rw [herrors, hwarnings] at hgroups
      simp only [List.filter_cons, hv, herrors, hwarnings]
      exact congrArg (v :: ·) hgroups

theorem bySeverity_eq : r.bySeverity = Severity.all.flatMap r.ofSeverity := by
  have hsorted : r.bySeverity.Pairwise fun v w => w.severity.rank ≤ v.severity.rank :=
    (List.pairwise_mergeSort asSevere_trans asSevere_total _).imp of_decide_eq_true
  rw [eq_groups hsorted]
  simp only [filter_bySeverity]

/-! ### The end -/

theorem readSummary?_written : readSummary? r.summary.toList =
    some (r.count .error, r.count .warning, r.count .info, r.filesChecked) := by
  have hline : r.summary.toList =
      "Summary: ".toList ++ ((toString (r.count .error)).toList ++ (" error(s), ".toList ++
        ("".toList ++ ((toString (r.count .warning)).toList ++ (" warning(s), ".toList ++
          ("".toList ++ ((toString (r.count .info)).toList ++ (" info(s) in ".toList ++
            ("" ++ toString r.filesChecked ++ " file(s)").toList)))))))) := by
    simp only [summary, String.toList_append, List.append_assoc]
    rfl
  have hfiles : onlyNumber? "" " file(s)" ("" ++ toString r.filesChecked ++ " file(s)").toList =
      some r.filesChecked := onlyNumber?_written "" " file(s)" r.filesChecked (by decide)
  rw [readSummary?, hline, number?_written _ _ _ _ rfl]
  simp only [Option.bind_eq_bind, Option.bind_some]
  rw [number?_written _ _ _ _ rfl]
  simp only [Option.bind_some]
  rw [number?_written _ _ _ _ rfl]
  simp only [Option.bind_some]
  rw [hfiles]
  rfl

theorem readEvicted?_written :
    readEvicted? (asRead r.evictedNote ++ [[]]) = some r.evicted := by
  by_cases hnone : r.evicted = 0
  · rw [evictedNote, if_pos hnone, hnone]
    rfl
  · rw [evictedNote, if_neg hnone]
    have hnote := onlyNumber?_written ""
      " lower-magnitude violation(s) dropped by --max-errors" r.evicted (by decide)
    rw [String.empty_append] at hnote
    change readEvicted? [(toString r.evicted ++ _).toList, []] = _
    rw [readEvicted?]
    exact hnote

/-! ### The whole text -/

theorem verboseLines_of_some (hsome : r.violations ≠ []) :
    r.verboseLines .plain =
      [s!"Analyzing {r.filesChecked} file(s)...", ""] ++
        (r.sections .plain fullEntry ++
          [s!"Files analyzed: {r.filesChecked}", s!"Files with violations: {r.files.length}"] ++
          r.summary :: r.evictedNote) := by
  have hfull : r.violations.isEmpty = false := by simpa using hsome
  rw [verboseLines, hfull, if_neg Bool.false_ne_true]
  rfl

theorem asRead_verboseLines (hsome : r.violations ≠ []) :
    asRead (r.verboseLines .plain) ++ [[]] =
      (s!"Analyzing {r.filesChecked} file(s)...").toList :: [] ::
        r.sectionLines Severity.all
          (("Files analyzed: " ++ toString r.filesChecked ++ "").toList ::
            ("Files with violations: " ++ toString r.files.length ++ "").toList ::
              r.summary.toList :: (asRead r.evictedNote ++ [[]])) := by
  rw [verboseLines_of_some r hsome, String.append_empty, String.append_empty, sectionLines]
  simp only [sections, asRead_append, List.append_assoc]
  rfl

theorem unbroken_fullEntry {v : Violation} (hv : v.OnOneLine) :
    ∀ line ∈ fullEntry v, Unbroken line := by
  obtain ⟨hfile, hrule, hmessage⟩ := hv
  have hlabel : Unbroken v.severity.label := by cases v.severity <;> decide
  have hmagnitude : ∀ line ∈ v.magnitude.elim [] (fun x => [s!"    Magnitude: {x.plainText}"]),
      Unbroken line := by
    cases v.magnitude with
    | none => exact fun line hline => absurd hline List.not_mem_nil
    | some x =>
      rw [Option.elim_some, List.forall_mem_singleton]
      exact Unbroken.append (by decide) x.unbroken_plainText
  simp only [fullEntry, List.forall_mem_append, List.forall_mem_cons]
  refine ⟨⟨⟨?_, ?_, ?_, by simp⟩, hmagnitude⟩, ?_, by decide, by simp⟩
  · exact Unbroken.append (by decide) hfile
  · exact Unbroken.append (by decide) hrule
  · exact Unbroken.append (by decide) hlabel
  · exact Unbroken.append (by decide) hmessage

theorem unbroken_sections (hlines : ∀ v ∈ r.violations, v.OnOneLine) :
    ∀ line ∈ r.sections .plain fullEntry, Unbroken line := by
  have hseparator : Unbroken separator := by decide +kernel
  have hsection (severity : Severity) :
      ∀ line ∈ r.severitySection .plain fullEntry severity, Unbroken line := by
    have htitle : Unbroken severity.title := by cases severity <;> decide
    rw [severitySection]
    split
    · exact fun line hline => absurd hline List.not_mem_nil
    · rw [List.forall_mem_append, List.forall_mem_cons, List.forall_mem_singleton]
      refine ⟨⟨?_, hseparator⟩, ?_⟩
      · exact ((htitle.append (by decide)).append (unbroken_number _)).append (by decide)
      · intro line hline
        obtain ⟨v, hv, hline⟩ := List.mem_flatMap.mp hline
        exact unbroken_fullEntry (hlines v (List.mem_of_mem_filter hv)) line hline
  rw [sections, List.forall_mem_append, List.forall_mem_singleton]
  refine ⟨fun line hline => ?_, hseparator⟩
  obtain ⟨severity, -, hline⟩ := List.mem_flatMap.mp hline
  exact hsection severity line hline

theorem unbroken_summary : Unbroken r.summary := by
  have hcount (severity : Severity) : Unbroken (toString (r.count severity)) :=
    unbroken_number _
  have hfirst : Unbroken (s!"Summary: {r.count .error} error(s), {r.count .warning} warning(s), ") :=
    ((((Unbroken.append (by decide) (hcount .error)).append (by decide)).append
      (hcount .warning)).append (by decide))
  have hsecond : Unbroken (s!"{r.count .info} info(s) in {r.filesChecked} file(s)") :=
    (((hcount .info).append (by decide)).append (unbroken_number _)).append (by decide)
  exact hfirst.append hsecond

theorem unbroken_evictedNote : ∀ line ∈ r.evictedNote, Unbroken line := by
  rw [evictedNote]
  split
  · exact fun line hline => absurd hline List.not_mem_nil
  · rw [List.forall_mem_singleton]
    exact (unbroken_number _).append (by decide)

theorem unbroken_verboseLines (hsome : r.violations ≠ [])
    (hlines : ∀ v ∈ r.violations, v.OnOneLine) :
    ∀ line ∈ r.verboseLines .plain, Unbroken line := by
  rw [verboseLines_of_some r hsome]
  simp only [List.forall_mem_append, List.forall_mem_cons]
  refine ⟨⟨?_, by decide, by simp⟩, ⟨r.unbroken_sections hlines, ?_, ?_, by simp⟩,
    r.unbroken_summary, r.unbroken_evictedNote⟩
  · exact (Unbroken.append (by decide) (unbroken_number _)).append (by decide)
  · exact Unbroken.append (by decide) (unbroken_number _)
  · exact Unbroken.append (by decide) (unbroken_number _)

/-- The reader finds the digest. -/
theorem read?_verbose (hsome : r.violations ≠ []) (hlines : ∀ v ∈ r.violations, v.OnOneLine) :
    Digest.read? (r.verbose .plain) = some r.digest := by
  have hdistinct : Severity.all.Nodup := by decide
  have hchecked := onlyNumber?_written "Files analyzed: " "" r.filesChecked (by decide)
  have hfiles := onlyNumber?_written "Files with violations: " "" r.files.length (by decide)
  rw [Digest.read?, verbose, segments_ofLines (r.unbroken_verboseLines hsome hlines),
    r.asRead_verboseLines hsome, Digest.ofLines?, r.readSections?_written hdistinct]
  simp only [Option.bind_eq_bind, Option.bind_some, Digest.ofEnd?, hchecked, hfiles,
    r.readSummary?_written, r.readEvicted?_written]
  rw [digest, bySeverity_eq]
  rfl

/-- The uncoloured text of a report with violations tells its digest, and so do two reports
with one text. -/
theorem full_layout_reads_back {r : Report} (hsome : r.violations ≠ [])
    (hlines : ∀ v ∈ r.violations, v.OnOneLine) :
    Digest.read? (r.verbose .plain) = some r.digest ∧
    ∀ q : Report, q.violations ≠ [] → (∀ v ∈ q.violations, v.OnOneLine) →
      q.verbose .plain = r.verbose .plain → q.digest = r.digest := by
  have hread := r.read?_verbose hsome hlines
  refine ⟨hread, fun q hqsome hqlines hsame => ?_⟩
  have hqread := q.read?_verbose hqsome hqlines
  rw [hsame, hread] at hqread
  exact (Option.some.inj hqread).symm

/-- Texts that look like the lines they stand between. -/
def imitating : Report where
  violations :=
    [⟨"Files analyzed: 3", "", .info, "    Magnitude: 3", none⟩,
      ⟨"  Rule: size", "WARNINGS (2):", .warning, "Summary: 0 error(s), ", some (.nan false)⟩,
      ⟨"ERRORS (0):", "size", .error, "", some (.ofNat 40)⟩,
      ⟨"src/a.rs", "    Rule: size", .warning, "    Severity: info", none⟩]
  diagnostics := []
  filesChecked := 7
  evicted := 3

theorem full_layout_reads_back_imitating :
    (∀ v ∈ imitating.violations, v.OnOneLine) ∧
    Digest.read? (imitating.verbose .plain) = some
      { filesChecked := 7
        entries :=
          [⟨"ERRORS (0):", "size", .error, some "40", ""⟩,
            ⟨"  Rule: size", "WARNINGS (2):", .warning, some "NaN", "Summary: 0 error(s), "⟩,
            ⟨"src/a.rs", "    Rule: size", .warning, none, "    Severity: info"⟩,
            ⟨"Files analyzed: 3", "", .info, none, "    Magnitude: 3"⟩]
        filesWithViolations := 4
        errors := 1
        warnings := 2
        infos := 1
        evicted := 3 } := by
  have hlines : ∀ v ∈ imitating.violations, v.OnOneLine := by decide
  refine ⟨hlines, (full_layout_reads_back (by decide) hlines).1.trans ?_⟩
  rw [digest, bySeverity_eq]
  decide +kernel

end Report

end SourceAudit
