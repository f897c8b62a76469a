/-
  SourceAudit/Proofs/LineEnds.lean
  ================================
  **Both ways to end a line.**

  A line may end with a line feed, or with a carriage return and a line feed.  A text without
  carriage returns has the same lines when every line feed of it gets one in front
  (`Text.lines_withReturns`).  What stands behind the last line feed ends with none and stays
  as it is.  The rules for single files look at the lines of a file and at nothing else of its
  content, so they report the same both ways (`same_reports_withReturns`).
-/
import SourceAudit.Proofs.Answers
import SourceAudit.Proofs.TextLines

namespace SourceAudit

/-! ### Lines -/

namespace Text

/-- The text with a carriage return in front of every line feed. -/
def withReturns (s : List Char) : List Char :=
  s.flatMap fun c => if c = '\n' then ['\r', '\n'] else [c]

theorem withReturns_line {line : List Char} (hline : '\n' ∉ line) : withReturns line = line := by
  induction line with
  | nil => rfl
  | cons c line ih =>
    rw [List.mem_cons, not_or] at hline
    rw [withReturns, List.flatMap_cons, if_neg (Ne.symm hline.1)]
    exact congrArg (c :: ·) (ih hline.2)

theorem withReturns_ended {line : List Char} (hline : '\n' ∉ line) (rest : List Char) :
    withReturns (line ++ '\n' :: rest) = (line ++ ['\r']) ++ '\n' :: withReturns rest := by
  have hcut : withReturns (line ++ '\n' :: rest) =
      withReturns line ++ ['\r', '\n'] ++ withReturns rest := by
    rw [withReturns, List.flatMap_append, List.flatMap_cons, if_pos rfl, ← List.append_assoc]
    rfl
  rw [hcut, withReturns_line hline]
  simp only [List.append_assoc, List.cons_append, List.nil_append]

theorem dropReturn_of_not_mem {line : List Char} (hplain : '\r' ∉ line) :
    dropReturn line = line := by
  rw [dropReturn, if_neg]
  intro hlast
  exact hplain (List.mem_of_getLast? hlast)

theorem dropReturn_concat (line : List Char) : dropReturn (line ++ ['\r']) = line := by
  simp [dropReturn]

/-- **Lines.**  Without carriage returns of its own a text has the same lines when every line
    feed gets one. -/
theorem lines_withReturns {s : List Char} (hplain : '\r' ∉ s) :
    lines (withReturns s) = lines s := by
  induction s using linewise with
  | empty => rfl
  | unended line hline hne => rw [withReturns_line hline]
  | ended line rest hline ih =>
    rw [List.mem_append, List.mem_cons, not_or, not_or] at hplain
    obtain ⟨hline', -, hrest⟩ := hplain
    -- the carriage return goes with the line feed behind it
    have hreturn : '\n' ∉ line ++ ['\r'] := by
      rw [List.mem_append, List.mem_singleton, not_or]
      exact ⟨hline, by decide⟩
    rw [withReturns_ended hline, lines_ended hreturn, lines_ended hline, dropReturn_concat,
      dropReturn_of_not_mem hline', ih hrest]

end Text

/-! ### Files -/

/-- The file with a carriage return in front of every line feed. -/
def FileContext.withReturns (f : FileContext) : FileContext :=
  { f with content := String.ofList (Text.withReturns f.content.toList) }

section

variable {f : FileContext} (hplain : '\r' ∉ f.content.toList)

include hplain

theorem FileContext.lines_withReturns :
    Text.lines f.withReturns.content.toList = Text.lines f.content.toList := by
  rw [withReturns, String.toList_ofList, Text.lines_withReturns hplain]

theorem FileContext.lineCount_withReturns : f.withReturns.lineCount = f.lineCount := by
  rw [lineCount, lines_withReturns hplain, lineCount]

theorem LineCount.ofText_withReturns (extension : Option String) :
    ofText extension f.withReturns.content.toList = ofText extension f.content.toList := by
  simp only [ofText, FileContext.lines_withReturns hplain]

theorem FileLength.violations_withReturns (config : RuleConfig) :
    violations f.withReturns config = violations f config := by
  have hviolation (t : Thresholds) : violation? f.withReturns t = violation? f t := by
    unfold violation?
    rw [FileContext.lineCount_withReturns hplain]
    rfl
  unfold violations
  simp only [hviolation]
  rfl

end

/-- Of the content of a file the metrics look at the counts only. -/
theorem Metric.checkAll_withReturns (f : FileContext) (config : RuleConfig) (count : LineCount)
    (told : Told) (metrics : List Metric) :
    checkAll f.withReturns config count told metrics = checkAll f config count told metrics := by
  induction metrics generalizing told with
  | nil => rfl
  | cons m rest ih =>
    have hcheck : check f.withReturns config count told m = check f config count told m := rfl
    simp only [checkAll, hcheck, ih]

/-- **Line ends.**  About a file without carriage returns the rules for single files report the
    same, in the same order, when every line feed gets one in front, whatever they are
    configured to and whatever they remember. -/
theorem same_reports_withReturns (f : FileContext) (config : RuleConfig)
    (hplain : '\r' ∉ f.content.toList) :
    (∀ (σ : Type) (memory memory' : σ), ∃ found,
      (FileLength.rule.askFile f config memory).value.1 = .ok found ∧
        (FileLength.rule.askFile f.withReturns config memory').value.1 = .ok found) ∧
    ∀ told told' : Metric.Told, ∃ found,
      (Metric.rule.askFile f config told).value.1 = .ok found ∧
        (Metric.rule.askFile f.withReturns config told').value.1 = .ok found := by
  refine ⟨fun σ memory memory' => ⟨(FileLength.violations f config).value, rfl, ?_⟩, ?_⟩
  · rw [← FileLength.violations_withReturns hplain]
    rfl
  · intro told told'
    let count := LineCount.ofText f.extension? f.content.toList
    refine ⟨(Metric.checkAll f config count told Metric.all).value.1, rfl, ?_⟩
    have hcount : LineCount.ofText f.withReturns.extension? f.withReturns.content.toList = count :=
      LineCount.ofText_withReturns hplain f.extension?
    have hanswer : (Metric.rule.askFile f.withReturns config told').value.1 =
        .ok (Metric.checkAll f.withReturns config
          (LineCount.ofText f.withReturns.extension? f.withReturns.content.toList) told'
          Metric.all).value.1 := rfl
    rw [hanswer, hcount, Metric.checkAll_withReturns,
      Metric.checkAll_forgetful f config count told' told]

/-- A file that ends inside a comment and inside a line, with one line that only holds a tab. -/
theorem same_reports_withReturns_unended :
    let f : FileContext := ⟨⟨"lib/a.dart"⟩, "/* a\n\t\n b */\nf();\n\n/* cd\ne", ⟨⟨"/p"⟩, none⟩⟩
    let config := { RuleConfig.default with
      thresholds := ⟨some (.ofNat 7), some (.ofNat 8)⟩
      metrics := [("source-lines", ⟨some (.ofNat 1), none⟩),
        ("longest-line", ⟨some (.ofNat 5), some (.ofNat 6)⟩),
        ("comment-percentage", ⟨some (.ofNat 90), none⟩)] }
    '\r' ∉ f.content.toList ∧
    f.withReturns.content = "/* a\r\n\t\r\n b */\r\nf();\r\n\r\n/* cd\r\ne" ∧
    (∃ found, (FileLength.rule.askFile f config ()).value.1 = .ok found ∧
      (FileLength.rule.askFile f.withReturns config ()).value.1 = .ok found ∧
      found.map Violation.severity = [.warning]) ∧
    ∃ found, (Metric.rule.askFile f config []).value.1 = .ok found ∧
      (Metric.rule.askFile f.withReturns config []).value.1 = .ok found ∧
      found.map Violation.severity = [.warning, .warning, .warning] := by
  intro f config
  have hplain : '\r' ∉ f.content.toList := by decide
  obtain ⟨hlines, hmetrics⟩ := same_reports_withReturns f config hplain
  obtain ⟨found, hfound, hreturns⟩ := hlines Unit () ()
  obtain ⟨measured, hmeasured, hreturns'⟩ := hmetrics [] []
  refine ⟨hplain, by decide +kernel, ⟨found, hfound, hreturns, ?_⟩,
    ⟨measured, hmeasured, hreturns', ?_⟩⟩
  · have hseverities : (FileLength.rule.askFile f config ()).value.1.toOption.map
        (fun found => found.map Violation.severity) = some [.warning] := by decide +kernel
    rw [hfound] at hseverities
    exact Option.some.inj hseverities
  · have hseverities : (Metric.rule.askFile f config []).value.1.toOption.map
        (fun found => found.map Violation.severity) = some [.warning, .warning, .warning] := by
      decide +kernel
    rw [hmeasured] at hseverities
    exact Option.some.inj hseverities

end SourceAudit
