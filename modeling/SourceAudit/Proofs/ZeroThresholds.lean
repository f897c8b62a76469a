/-
  SourceAudit/Proofs/ZeroThresholds.lean
  ======================================
  **Zero thresholds of metrics.**

  A metric is evaluated when its own block sets a threshold other than zero.  Whether a zero
  threshold is off is looked at there only: beside one that counts, a zero threshold is crossed
  like any other.  So taking every zero threshold out of the metrics of a configuration may
  change what is reported, and it does so exactly where a metric is *decided at zero*: the
  threshold that its value crosses is a zero one of its own block, which no exception replaces.

  * `Thresholds.classify_eq_some_iff`: a value is judged by the severest threshold it crosses;
  * `Thresholds.classify_withoutZeros`, `Thresholds.classify_at_zero`: the same verdict without
    zero thresholds, and another one where a zero threshold gave it;
  * `Metric.reports_withoutZeros_iff`: the reports agree when no metric is decided at zero, and
    only then.
-/
import SourceAudit.Proofs.FirstException
import SourceAudit.Proofs.LongerFiles
import SourceAudit.Proofs.NamedEntries

namespace SourceAudit

/-! ### Verdicts -/

namespace Thresholds

/-- The threshold behind a severity; nothing is merely told from a threshold on. -/
def at? (t : Thresholds) : Severity → Option Binary64
  | .error => t.error
  | .warning => t.warning
  | .info => none

/-- The thresholds but for those that are zero. -/
def withoutZeros (t : Thresholds) : Thresholds :=
  ⟨t.warning.filter fun x => !x.isNegligible, t.error.filter fun x => !x.isNegligible⟩

variable {t base overrides : Thresholds} {direction : Direction} {value limit : Binary64}
  {severity : Severity}

theorem at?_overlay : (base.overlay overrides).at? severity =
    (overrides.at? severity).or (base.at? severity) := by
  cases severity <;> rfl

theorem at?_withoutZeros : t.withoutZeros.at? severity =
    (t.at? severity).filter fun x => !x.isNegligible := by
  cases severity <;> rfl

/-- An error is told where the error threshold is crossed, and a warning where the other one is
    crossed and that one is not. -/
theorem classify_eq_some_iff : t.classify direction value = some (severity, limit) ↔
    t.at? severity = some limit ∧ direction.crosses value limit = true ∧
      (severity = .warning → ∀ l, t.error = some l → direction.crosses value l = false) := by
  unfold classify
  cases herror : t.error.filter (direction.crosses value) with
  | some l =>
    obtain ⟨hset, hcrossed⟩ := Option.filter_eq_some_iff.mp herror
    constructor
    · intro h
      obtain ⟨rfl, rfl⟩ := Prod.mk.inj (Option.some.inj h)
      exact ⟨hset, hcrossed, fun h => nomatch h⟩
    · rintro ⟨hat, -, hbelow⟩
      cases severity with
      | info => cases hat
      | warning => exact nomatch hcrossed.symm.trans (hbelow rfl l hset)
      | error =>
        obtain rfl := Option.some.inj (hset.symm.trans hat)
        rfl
  | none =>
    rw [Option.filter_eq_none_iff] at herror
    simp only [Option.map_eq_some_iff, Option.filter_eq_some_iff, Prod.mk.injEq]
    constructor
    · rintro ⟨l, ⟨hset, hcrossed⟩, rfl, rfl⟩
      exact ⟨hset, hcrossed, fun _ l hl => Bool.eq_false_iff.mpr (herror l hl)⟩
    · rintro ⟨hat, hcrossed, -⟩
      cases severity with
      | info => cases hat
      | warning => exact ⟨limit, ⟨hat, hcrossed⟩, rfl, rfl⟩
      | error => exact absurd hcrossed (herror limit hat)

theorem classify_eq_none (h : t.classify direction value = none)
    (hat : t.at? severity = some limit) : direction.crosses value limit = false := by
  rw [← Bool.not_eq_true]
  intro hcrossed
  have herror : ∀ l, t.error = some l → direction.crosses value l = false := by
    intro l hl
    rw [← Bool.not_eq_true]
    intro hl'
    rw [classify_eq_some_iff.mpr ⟨show t.at? .error = some l from hl, hl', fun h => nomatch h⟩] at h
    cases h
  rw [classify_eq_some_iff.mpr ⟨hat, hcrossed, fun _ => herror⟩] at h
  cases h

/-! ### Verdicts without zero thresholds -/

/-- What is set without zero thresholds is set with them. -/
theorem at?_of_withoutZeros (h : (base.withoutZeros.overlay overrides).at? severity = some limit) :
    (base.overlay overrides).at? severity = some limit := by
  rw [at?_overlay, Option.or_eq_some_iff] at h ⊢
  rcases h with hset | ⟨hfree, hbase⟩
  · exact .inl hset
  · rw [at?_withoutZeros] at hbase
    exact .inr ⟨hfree, (Option.filter_eq_some_iff.mp hbase).1⟩

theorem classify_withoutZeros
    (h : ∀ severity limit,
      (base.overlay overrides).classify direction value = some (severity, limit) →
        overrides.at? severity = none → limit.isNegligible = false) :
    (base.withoutZeros.overlay overrides).classify direction value =
      (base.overlay overrides).classify direction value := by
  cases hverdict : (base.overlay overrides).classify direction value with
  | none =>
    rw [Option.eq_none_iff_forall_ne_some]
    rintro ⟨severity, limit⟩ hwithout
    obtain ⟨hat, hcrossed, -⟩ := classify_eq_some_iff.mp hwithout
    exact nomatch hcrossed.symm.trans (classify_eq_none hverdict (at?_of_withoutZeros hat))
  | some verdict =>
    obtain ⟨severity, limit⟩ := verdict
    obtain ⟨hat, hcrossed, hbelow⟩ := classify_eq_some_iff.mp hverdict
    refine classify_eq_some_iff.mpr ⟨?_, hcrossed, ?_⟩
    · rw [at?_overlay, Option.or_eq_some_iff] at hat ⊢
      rcases hat with hset | ⟨hfree, hbase⟩
      · exact .inl hset
      · -- no exception sets the threshold, so it is none that is taken out
        refine .inr ⟨hfree, ?_⟩
        rw [at?_withoutZeros, Option.filter_eq_some_iff, Bool.not_eq_true']
        exact ⟨hbase, h severity limit hverdict hfree⟩
    · intro hwarning l hl
      have hset : (base.withoutZeros.overlay overrides).at? .error = some l := hl
      exact hbelow hwarning l (at?_of_withoutZeros hset)

/-- Without a zero threshold its severity is not told. -/
theorem classify_at_zero
    (hverdict : (base.overlay overrides).classify direction value = some (severity, limit))
    (hzero : limit.isNegligible = true) (hfree : overrides.at? severity = none) (l : Binary64) :
    (base.withoutZeros.overlay overrides).classify direction value ≠ some (severity, l) := by
  intro hwithout
  obtain ⟨hat, -⟩ := classify_eq_some_iff.mp hverdict
  obtain ⟨hat', -⟩ := classify_eq_some_iff.mp hwithout
  rw [at?_overlay, hfree, Option.none_or] at hat hat'
  rw [at?_withoutZeros, hat, Option.filter_some, hzero] at hat'
  cases hat'

end Thresholds

/-! ### Configurations -/

/-- The configuration without the zero thresholds of its metrics. -/
def RuleConfig.withoutZeros (c : RuleConfig) : RuleConfig :=
  { c with metrics := c.metrics.map fun m => (m.1, m.2.withoutZeros) }

/-- What the first exception for a file sets. -/
def Resolver.overrides (r : Resolver) (file : Path) (config : RuleConfig)
    (metric : Option String) : Thresholds :=
  ((r.exception? file config).map fun e => e.overrides metric).getD .off

theorem RuleConfig.lookup_withoutZeros (c : RuleConfig) (id : String) :
    c.withoutZeros.metrics.lookup id = (c.metrics.lookup id).map Thresholds.withoutZeros :=
  Entries.lookup_mapValues Thresholds.withoutZeros id c.metrics

theorem FileContext.thresholds_of_lookup (f : FileContext) {config : RuleConfig} {id : String}
    {base : Thresholds} (hbase : config.metrics.lookup id = some base) :
    (f.thresholds config (some id)).value =
      base.overlay (f.resolver.overrides f.path config (some id)) := by
  have hown : config.base (some id) = base := by
    rw [RuleConfig.base, Option.bind_some, hbase, Option.getD_some]
  rw [thresholds, Resolver.value_resolve, Resolver.thresholds, Resolver.overrides, hown]
  cases f.resolver.exception? f.path config <;> rfl

/-- Exceptions stay as they are. -/
theorem FileContext.thresholds_withoutZeros (f : FileContext) {config : RuleConfig} {id : String}
    {base : Thresholds} (hbase : config.metrics.lookup id = some base) :
    (f.thresholds config.withoutZeros (some id)).value =
      base.withoutZeros.overlay (f.resolver.overrides f.path config (some id)) := by
  have hwithout : config.withoutZeros.metrics.lookup id = some base.withoutZeros := by
    rw [RuleConfig.lookup_withoutZeros, hbase, Option.map_some]
  exact f.thresholds_of_lookup hwithout

namespace Metric

variable {m : Metric} {f : FileContext} {config : RuleConfig} {count : LineCount} {told : Told}

theorem isIdle_withoutZeros (t : Thresholds) : isIdle t.withoutZeros = isIdle t := by
  have hoption (x : Option Binary64) :
      (x.filter fun x => !x.isNegligible).all Binary64.isNegligible =
        x.all Binary64.isNegligible := by
    cases x with
    | none => rfl
    | some x => cases hx : x.isNegligible <;> simp [hx]
  rw [isIdle, Thresholds.withoutZeros, hoption, hoption, isIdle]

/-- The file is reported for a metric at a zero threshold of the metric itself. -/
def DecidedAtZero (m : Metric) (f : FileContext) (config : RuleConfig) (count : LineCount) : Prop :=
  ∃ value severity limit, m.Crosses f config count value severity limit ∧
    limit.isNegligible = true ∧
    (f.resolver.overrides f.path config (some m.id)).at? severity = none

theorem check_withoutZeros (told told' : Told) (h : ¬ m.DecidedAtZero f config count) :
    (m.check f config.withoutZeros count told').value.1 =
      (m.check f config count told).value.1 := by
  unfold check
  rw [RuleConfig.lookup_withoutZeros]
  cases hbase : config.metrics.lookup m.id with
  | none => rfl
  | some base =>
    rw [Option.map_some, Option.filter_some, Option.filter_some, isIdle_withoutZeros]
    cases hidle : isIdle base with
    | true => rfl
    | false =>
      simp only [Bool.not_false, if_true, Logged.value_bind]
      cases hvalue : m.value? count with
      | none => rfl
      | some value =>
        have hverdict : (f.thresholds config.withoutZeros (some m.id)).value.classify m.direction
            value = (f.thresholds config (some m.id)).value.classify m.direction value := by
          rw [f.thresholds_withoutZeros hbase, f.thresholds_of_lookup hbase]
          apply Thresholds.classify_withoutZeros
          intro severity limit hverdict hfree
          rw [← Bool.not_eq_true]
          intro hzero
          rw [← f.thresholds_of_lookup hbase] at hverdict
          exact h ⟨value, severity, limit, ⟨⟨base, hbase, hidle⟩, hvalue, hverdict⟩, hzero, hfree⟩
        simp only [Logged.value_bind, hverdict]
        cases (f.thresholds config (some m.id)).value.classify m.direction value <;> rfl

theorem checkAll_withoutZeros {told' : Told} {metrics : List Metric}
    (h : ∀ m ∈ metrics, ¬ m.DecidedAtZero f config count) :
    (checkAll f config.withoutZeros count told' metrics).value.1 =
      (checkAll f config count told metrics).value.1 := by
  induction metrics generalizing told told' with
  | nil => rfl
  | cons m rest ih =>
    obtain ⟨hfirst, hrest⟩ := List.forall_mem_cons.mp h
    simp only [checkAll, Logged.value_bind, Logged.value_pure]
    rw [check_withoutZeros told told' hfirst]
    exact congrArg _ (ih hrest)

/-- A violation at a zero threshold is not among those without zero thresholds. -/
theorem not_mem_checkAll_withoutZeros {told' : Told} {metrics : List Metric}
    {value limit : Binary64} {severity : Severity}
    (hcrosses : m.Crosses f config count value severity limit)
    (hzero : limit.isNegligible = true)
    (hfree : (f.resolver.overrides f.path config (some m.id)).at? severity = none) :
    m.violation f value severity limit ∉
      (checkAll f config.withoutZeros count told' metrics).value.1 := by
  intro hmem
  obtain ⟨m', -, value', severity', limit', hcrosses', hsame⟩ := mem_checkAll_iff.mp hmem
  have habout : m.IsAbout (m.violation f value severity limit) := ⟨f, value, severity, limit, rfl⟩
  obtain rfl : m = m' := habout.unique ⟨f, value', severity', limit', hsame⟩
  obtain rfl : severity = severity' := congrArg Violation.severity hsame
  obtain rfl : value = value' := Option.some.inj (hcrosses.measured.symm.trans hcrosses'.measured)
  obtain ⟨base, hbase, -⟩ := hcrosses.configured
  have hverdict := hcrosses.classified
  have hverdict' := hcrosses'.classified
  rw [f.thresholds_of_lookup hbase] at hverdict
  rw [f.thresholds_withoutZeros hbase] at hverdict'
  exact Thresholds.classify_at_zero hverdict hzero hfree limit' hverdict'

/-- **Zero thresholds.**  Without the zero thresholds of its metrics a configuration gives the
    same reports about a file exactly when no metric is decided at zero, whatever was told
    before. -/
theorem reports_withoutZeros_iff (f : FileContext) (config : RuleConfig) (told told' : Told) :
    ∃ found kept, (rule.askFile f config told).value.1 = .ok found ∧
      (rule.askFile f config.withoutZeros told').value.1 = .ok kept ∧
      (kept = found ↔ ∀ m : Metric,
        ¬ m.DecidedAtZero f config (LineCount.ofText f.extension? f.content.toList)) := by
  let count := LineCount.ofText f.extension? f.content.toList
  refine ⟨(checkAll f config count told all).value.1,
    (checkAll f config.withoutZeros count told' all).value.1, rfl, rfl, ?_⟩
  constructor
  · rintro hsame m ⟨value, severity, limit, hcrosses, hzero, hfree⟩
    have hm : m ∈ all := by cases m <;> decide
    have hfound : m.violation f value severity limit ∈
        (checkAll f config count told all).value.1 :=
      mem_checkAll_iff.mpr ⟨m, hm, value, severity, limit, hcrosses, rfl⟩
    rw [← hsame] at hfound
    exact not_mem_checkAll_withoutZeros hcrosses hzero hfree hfound
  · intro h
    exact checkAll_withoutZeros fun m _ => h m

/-- A zero threshold for warnings beside one for errors. -/
def zeroWarning : RuleConfig := { RuleConfig.default with
  metrics := [("source-lines", ⟨some (.ofNat 0), some (.ofNat 500)⟩)] }

/-- One source line is one too many when the threshold for warnings is zero, and no violation
    when there is none. -/
theorem zero_threshold_reports :
    let f : FileContext := ⟨⟨"/w/a.dart"⟩, "a;\n", ⟨⟨"/w"⟩, none⟩⟩
    zeroWarning.withoutZeros.metrics = [("source-lines", ⟨none, some (.ofNat 500)⟩)] ∧
    (rule.askFile f zeroWarning []).value.1.toOption =
      some [⟨"a.dart", "code_metrics", .warning, "source-lines = 1 >= 0 (threshold)",
        some (.ofNat 1)⟩] ∧
    (rule.askFile f zeroWarning.withoutZeros []).value.1.toOption = some [] := by
  decide +kernel

end Metric

end SourceAudit
