/-
  SourceAudit/Proofs/LongerFiles.lean
  ===================================
  **A longer file is not judged more mildly.**

  Lines written behind those of a file change none of the kinds and lengths in front of them
  (`LineCount.code_le_append`, `LineCount.longest_le_append`), counts keep their order as
  numbers, and of two numbers the greater one crosses every threshold that the other does
  (`Thresholds.classify_of_atLeast`).  What a rule makes of a file is said apart from how it
  goes over it:

    * the rule for file lengths reports a crossed threshold    — `FileLength.reports_iff`;
    * the rule for metrics reports one for each metric that
      is configured, measured and crosses its threshold        — `Metric.reports_iff`.

  So whatever is reported about the lines of a file is reported, at least as severely, about
  that file with more lines behind them (`longer_file_reports`).
-/
import SourceAudit.Proofs.Answers
import SourceAudit.Proofs.Binary64.Monotone
import SourceAudit.Proofs.LineKinds

namespace SourceAudit

variable {σ : Type}

/-! ### Counts of a longer text -/

namespace LineCount

variable {front : List Char} (hfront : Text.Ended front) (extension : Option String)
  (back : List Char)

include hfront

theorem code_le_append :
    (ofText extension front).code ≤ (ofText extension (front ++ back)).code := by
  simp only [ofText_eq, Text.lines_append hfront, LineKind.ofLines_append, List.count_append]
  exact Nat.le_add_right ..

theorem longest_le_append :
    (ofText extension front).longest ≤ (ofText extension (front ++ back)).longest := by
  simp only [ofText_eq, Text.lines_append hfront]
  exact longestOf_le_append ..

end LineCount

/-- The file with another content. -/
def FileContext.withContent (f : FileContext) (content : String) : FileContext :=
  { f with content := content }

theorem FileContext.lineCount_le_append (f : FileContext) {front : String}
    (hfront : Text.Ended front.toList) (back : String) :
    (f.withContent front).lineCount ≤ (f.withContent (front ++ back)).lineCount := by
  simp only [lineCount, withContent, String.toList_append, Text.lines_append hfront,
    List.length_append]
  exact Nat.le_add_right ..

/-! ### Crossed thresholds -/

/-- A number that is at least as great is at least as bad, whatever the thresholds are. -/
theorem Thresholds.classify_of_atLeast {t : Thresholds} {x y limit : Binary64}
    {severity : Severity} (hle : y.atLeast x = true)
    (hx : t.classify .higherIsWorse x = some (severity, limit)) :
    ∃ severity' limit', t.classify .higherIsWorse y = some (severity', limit') ∧
      severity.rank ≤ severity'.rank := by
  have hcrosses {l : Binary64} (hl : Direction.crosses .higherIsWorse x l = true) :
      Direction.crosses .higherIsWorse y l = true := Binary64.atLeast_trans hle hl
  unfold classify at hx ⊢
  cases herror : t.error.filter (Direction.crosses .higherIsWorse y) with
  | some limit' => exact ⟨.error, limit', rfl, by cases severity <;> decide⟩
  | none =>
    -- what `y` does not cross, `x` does not cross, so `x` crosses the warning threshold
    have herror' : t.error.filter (Direction.crosses .higherIsWorse x) = none := by
      rw [Option.filter_eq_none_iff] at herror ⊢
      exact fun l hl hcrossed => herror l hl (hcrosses hcrossed)
    rw [herror'] at hx
    obtain ⟨limit', hlimit, hverdict⟩ := Option.map_eq_some_iff.mp hx
    obtain ⟨hwarning, hcrossed⟩ := Option.filter_eq_some_iff.mp hlimit
    obtain ⟨rfl, rfl⟩ := Prod.mk.inj hverdict
    refine ⟨.warning, limit', ?_, Nat.le_refl _⟩
    exact Option.map_eq_some_iff.mpr
      ⟨limit', Option.filter_eq_some_iff.mpr ⟨hwarning, hcrosses hcrossed⟩, rfl⟩

/-! ### What the rules for files report -/

/-- Asked about a file, the rule answers with violations, and `v` is among them. -/
def Rule.Reports (r : Rule σ) (f : FileContext) (config : RuleConfig) (memory : σ)
    (v : Violation) : Prop :=
  ∃ ask found, r.check = .perFile ask ∧ (ask f config memory).value.1 = .ok found ∧ v ∈ found

theorem FileLength.reports_iff {f : FileContext} {config : RuleConfig} {memory : σ}
    {v : Violation} : FileLength.rule.Reports f config memory v ↔
      violation? f (f.thresholds config none).value = some v := by
  constructor
  · rintro ⟨ask, found, hask, hfound, hv⟩
    cases hask
    cases hfound
    exact Option.mem_toList.mp hv
  · intro hv
    exact ⟨_, _, rfl, rfl, Option.mem_toList.mpr hv⟩

namespace Metric

variable {m : Metric} {f : FileContext} {config : RuleConfig} {count : LineCount} {told : Told}
  {v : Violation}

theorem reports_iff : Metric.rule.Reports f config told v ↔
    ∃ (m : Metric) (value : Binary64) (severity : Severity) (limit : Binary64),
      m.Crosses f config (LineCount.ofText f.extension? f.content.toList) value severity limit ∧
        v = m.violation f value severity limit := by
  have hall (m : Metric) : m ∈ all := by cases m <;> decide
  constructor
  · rintro ⟨ask, found, hask, hfound, hv⟩
    cases hask
    cases hfound
    have hv : v ∈ (checkAll f config (LineCount.ofText f.extension? f.content.toList) told
      all).value.1 := hv
    obtain ⟨m, -, hm⟩ := mem_checkAll_iff.mp hv
    exact ⟨m, hm⟩
  · rintro ⟨m, hm⟩
    exact ⟨_, _, rfl, rfl, mem_checkAll_iff.mpr ⟨m, hall m, hm⟩⟩

/-- A violation of a metric, as its message tells. -/
def IsAbout (m : Metric) (v : Violation) : Prop :=
  ∃ f value severity limit, v = m.violation f value severity limit

/-- Messages begin with the name of the metric. -/
theorem IsAbout.unique {m' : Metric} (hm : m.IsAbout v) (hm' : m'.IsAbout v) : m = m' := by
  have hhead {m : Metric} (hm : m.IsAbout v) : v.message.toList.head? = m.id.toList.head? := by
    obtain ⟨f, value, severity, limit, rfl⟩ := hm
    cases m <;> simp [violation, id, toString]
  have hsame := (hhead hm).symm.trans (hhead hm')
  cases m <;> cases m' <;> first | rfl | exact absurd hsame (by decide)

/-- More lines and longer ones give a value that is at least as great. -/
theorem value?_of_le {count' : LineCount} {x : Binary64} (hm : m ≠ .commentShare)
    (hcode : count.code ≤ count'.code) (hlongest : count.longest ≤ count'.longest)
    (hx : m.value? count = some x) : ∃ y, m.value? count' = some y ∧ y.atLeast x = true := by
  cases m with
  | sourceLines =>
    obtain rfl := Option.some.inj hx
    exact ⟨_, rfl, Binary64.atLeast_ofNat hcode⟩
  | longestLine =>
    obtain rfl := Option.some.inj hx
    exact ⟨_, rfl, Binary64.atLeast_ofNat hlongest⟩
  | commentShare => exact absurd rfl hm

end Metric

/-! ### Longer files -/

/-- The other violation is at least as severe and weighs at least as much. -/
def Violation.AtMost (v v' : Violation) : Prop :=
  v.severity.rank ≤ v'.severity.rank ∧
    ∃ x x', v.magnitude = some x ∧ v'.magnitude = some x' ∧ x'.atLeast x = true

section

variable {f : FileContext} {config : RuleConfig} {front : String}
  (hfront : Text.Ended front.toList) (back : String)

include hfront

theorem FileLength.reports_append {memory memory' : σ} {v : Violation}
    (hv : FileLength.rule.Reports (f.withContent front) config memory v) :
    ∃ v', FileLength.rule.Reports (f.withContent (front ++ back)) config memory' v' ∧
      v.AtMost v' := by
  rw [reports_iff] at hv
  obtain ⟨⟨severity, limit⟩, hverdict, rfl⟩ := Option.map_eq_some_iff.mp hv
  have hcount := Binary64.atLeast_ofNat (f.lineCount_le_append hfront back)
  obtain ⟨severity', limit', hverdict', hsevere⟩ := Thresholds.classify_of_atLeast hcount hverdict
  refine ⟨_, reports_iff.mpr (Option.map_eq_some_iff.mpr ⟨_, hverdict', rfl⟩), hsevere, ?_⟩
  exact ⟨_, _, rfl, rfl, hcount⟩

theorem Metric.reports_append {m : Metric} (hm : m ≠ .commentShare) {told told' : Metric.Told}
    {v : Violation} (habout : m.IsAbout v)
    (hv : Metric.rule.Reports (f.withContent front) config told v) :
    ∃ v', m.IsAbout v' ∧ Metric.rule.Reports (f.withContent (front ++ back)) config told' v' ∧
      v.AtMost v' := by
  obtain ⟨m', value, severity, limit, ⟨hconfigured, hvalue, hverdict⟩, rfl⟩ := reports_iff.mp hv
  obtain rfl : m = m' := habout.unique ⟨_, value, severity, limit, rfl⟩
  have hhigher : m.direction = .higherIsWorse := by
    cases m with
    | commentShare => exact absurd rfl hm
    | _ => rfl
  have htext : (f.withContent (front ++ back)).content.toList = front.toList ++ back.toList :=
    String.toList_append
  obtain ⟨value', hvalue', hle⟩ := value?_of_le hm
    (LineCount.code_le_append hfront f.extension? back.toList)
    (LineCount.longest_le_append hfront f.extension? back.toList) hvalue
  rw [hhigher] at hverdict
  obtain ⟨severity', limit', hverdict', hsevere⟩ := Thresholds.classify_of_atLeast hle hverdict
  rw [← hhigher] at hverdict'
  refine ⟨m.violation f value' severity' limit', ⟨_, _, _, _, rfl⟩, reports_iff.mpr ?_, hsevere,
    value, value', rfl, rfl, hle⟩
  refine ⟨m, value', severity', limit', ⟨hconfigured, ?_, hverdict'⟩, rfl⟩
  rw [htext]
  exact hvalue'

end

/-- **A longer file is not judged more mildly.**  Behind a text that ends its last line, more
    text takes nothing back: what is reported about the number of lines, the source lines or
    the longest line is reported, at least as severely and with at least the magnitude,
    whatever the thresholds are and whatever the rules remember. -/
theorem longer_file_reports (f : FileContext) (config : RuleConfig) {front : String}
    (hfront : Text.Ended front.toList) (back : String) :
    (∀ (σ : Type) (memory memory' : σ) (v : Violation),
      FileLength.rule.Reports (f.withContent front) config memory v →
      ∃ v', FileLength.rule.Reports (f.withContent (front ++ back)) config memory' v' ∧
        v.AtMost v') ∧
    ∀ m : Metric, m = .sourceLines ∨ m = .longestLine →
      ∀ (told told' : Metric.Told) (v : Violation), m.IsAbout v →
        Metric.rule.Reports (f.withContent front) config told v →
        ∃ v', m.IsAbout v' ∧
          Metric.rule.Reports (f.withContent (front ++ back)) config told' v' ∧ v.AtMost v' := by
  refine ⟨fun σ memory memory' v hv => FileLength.reports_append hfront back hv, ?_⟩
  intro m hm told told' v habout hv
  have hcounts : m ≠ .commentShare := by
    rintro rfl
    rcases hm with h | h <;> cases h
  exact Metric.reports_append hfront back hcounts habout hv

/-- Thresholds the wrong way round and one that is no number, and a text that ends inside a
    comment, which the line behind it closes. -/
theorem longer_file_reports_backwards :
    let f : FileContext := ⟨⟨"lib/a.dart"⟩, "", ⟨⟨"/p"⟩, none⟩⟩
    let config := { RuleConfig.default with
      thresholds := ⟨some (.ofNat 2), some (.nan false)⟩
      metrics := [("longest-line", ⟨some (.ofNat 9), some (.ofNat 4)⟩)] }
    Text.Ended "x\n/* y\n".toList ∧
    (∃ v v', FileLength.rule.Reports (f.withContent "x\n/* y\n") config () v ∧
      FileLength.rule.Reports (f.withContent ("x\n/* y\n" ++ "z */ w\nv")) config () v' ∧
      v.AtMost v') ∧
    ∃ v v', Metric.longestLine.IsAbout v ∧
      Metric.rule.Reports (f.withContent "x\n/* y\n") config [] v ∧
      Metric.longestLine.IsAbout v' ∧
      Metric.rule.Reports (f.withContent ("x\n/* y\n" ++ "z */ w\nv")) config [] v' ∧
      v.AtMost v' := by
  intro f config
  have hfront : Text.Ended "x\n/* y\n".toList := by decide
  obtain ⟨hlines, hmetrics⟩ := longer_file_reports f config hfront "z */ w\nv"
  have hclassify : (f.thresholds config none).value.classify .higherIsWorse
      (.ofNat (f.withContent "x\n/* y\n").lineCount) = some (.warning, .ofNat 2) := by
    decide +kernel
  obtain ⟨v, hv⟩ : ∃ v, FileLength.rule.Reports (f.withContent "x\n/* y\n") config () v :=
    ⟨_, FileLength.reports_iff.mpr (Option.map_eq_some_iff.mpr ⟨_, hclassify, rfl⟩)⟩
  have hcrosses : Metric.longestLine.Crosses (f.withContent "x\n/* y\n") config
      (LineCount.ofText (f.withContent "x\n/* y\n").extension? "x\n/* y\n".toList)
      (.ofNat 4) .error (.ofNat 4) :=
    ⟨⟨_, rfl, by decide +kernel⟩, by decide +kernel, by decide +kernel⟩
  obtain ⟨w, habout, hw⟩ : ∃ w, Metric.longestLine.IsAbout w ∧
      Metric.rule.Reports (f.withContent "x\n/* y\n") config [] w :=
    ⟨_, ⟨_, _, _, _, rfl⟩, Metric.reports_iff.mpr ⟨_, _, _, _, hcrosses, rfl⟩⟩
  obtain ⟨v', hv', hle⟩ := hlines Unit () () v hv
  obtain ⟨w', habout', hw', hle'⟩ := hmetrics .longestLine (.inr rfl) [] [] w habout hw
  exact ⟨hfront, ⟨v, v', hv, hv', hle⟩, w, w', habout, hw, habout', hw', hle'⟩

end SourceAudit
