/-
  SourceAudit/Proofs/IdleExceptions.lean
  ======================================
  **Exceptions without effect.**

  An exception is idle when laying it over thresholds changes none, whatever the thresholds and
  whatever metric is asked for (`ExceptionEntry.Idle`).  The check of an entry looks at what is
  written in it only, and that is enough: a threshold set anywhere shows for some metric, since
  a metric with an entry gets its own thresholds and one without an entry those of the
  exception — `ExceptionEntry.hasEffect_eq_false_iff`.

  In a document a metric has one entry in an exception at most
  (`ConfigDraft.metrics_distinct`).  So the warnings of a load are about the idle ones among the
  exceptions it comes upon, in their order — `ConfigDraft.tells_idle_exceptions`.
-/
import SourceAudit.Proofs.LoadSteps
import Mathlib.Data.Fintype.EquivFin

namespace SourceAudit

/-! ### What an exception changes -/

theorem Thresholds.isOff_iff {t : Thresholds} : t.isOff = true ↔ t = .off := by
  obtain ⟨warning, error⟩ := t
  simp [isOff, off]

theorem Thresholds.overlay_off (base : Thresholds) : base.overlay .off = base := rfl

/-- Thresholds that are set show where there were none before. -/
theorem Thresholds.eq_off_of_overlay {t : Thresholds} (h : Thresholds.off.overlay t = .off) :
    t = .off := by
  obtain ⟨warning, error⟩ := t
  simpa [overlay, off] using h

namespace ExceptionEntry

/-- Whatever the thresholds and the metric, the exception leaves the thresholds as they are. -/
def Idle (e : ExceptionEntry) : Prop :=
  ∀ (base : Thresholds) (metric : Option String), base.overlay (e.overrides metric) = base

theorem hasEffect_eq_false {e : ExceptionEntry} : e.hasEffect = false ↔
    e.thresholds = .off ∧ ∀ m ∈ e.metrics, m.2 = .off := by
  simp [hasEffect, Thresholds.isOff_iff, List.any_eq_false]

theorem overrides_of_lookup {e : ExceptionEntry} {id : String} {t : Thresholds}
    (hfound : e.metrics.lookup id = some t) : e.overrides (some id) = t := by
  simp [overrides, hfound]

theorem overrides_of_other {e : ExceptionEntry} {id : String}
    (hnone : e.metrics.lookup id = none) : e.overrides (some id) = e.thresholds := by
  simp [overrides, hnone]

/-- Where nothing is set, nothing is laid over any thresholds. -/
theorem idle_of_nothing_set {e : ExceptionEntry} (hrule : e.thresholds = .off)
    (hmetrics : ∀ m ∈ e.metrics, m.2 = .off) : e.Idle := by
  intro base metric
  have hoff : e.overrides metric = .off := by
    cases metric with
    | none => exact hrule
    | some id =>
      cases hfound : e.metrics.lookup id with
      | none => rw [overrides_of_other hfound, hrule]
      | some t =>
        rw [overrides_of_lookup hfound]
        exact hmetrics (id, t) (Entries.mem_of_lookup hfound)
  rw [hoff, Thresholds.overlay_off]

/-- There is always a metric without an entry of its own. -/
theorem exists_other_metric (e : ExceptionEntry) : ∃ id, e.metrics.lookup id = none := by
  obtain ⟨id, hid⟩ := Infinite.exists_notMem_finset (e.metrics.map Prod.fst).toFinset
  refine ⟨id, ?_⟩
  rw [← Option.not_isSome_iff_eq_none, Entries.lookup_isSome_iff_mem]
  simpa using hid

/-- The metrics alone show whether something is set. -/
theorem nothing_set_of_metrics {e : ExceptionEntry} (hdistinct : (e.metrics.map Prod.fst).Nodup)
    (hidle : ∀ (base : Thresholds) (id : String), base.overlay (e.overrides (some id)) = base) :
    e.thresholds = .off ∧ ∀ m ∈ e.metrics, m.2 = .off := by
  constructor
  · obtain ⟨id, hid⟩ := e.exists_other_metric
    have hoff := hidle .off id
    rw [overrides_of_other hid] at hoff
    exact Thresholds.eq_off_of_overlay hoff
  · intro m hm
    have hoff := hidle .off m.1
    rw [overrides_of_lookup (Entries.lookup_of_mem hdistinct hm)] at hoff
    exact Thresholds.eq_off_of_overlay hoff

theorem hasEffect_eq_false_iff {e : ExceptionEntry} (hdistinct : (e.metrics.map Prod.fst).Nodup) :
    (e.hasEffect = false ↔ e.Idle) ∧
      (e.Idle ↔ ∀ (base : Thresholds) (id : String),
        base.overlay (e.overrides (some id)) = base) := by
  have hback (h : ∀ (base : Thresholds) (id : String),
      base.overlay (e.overrides (some id)) = base) : e.hasEffect = false :=
    hasEffect_eq_false.mpr (nothing_set_of_metrics hdistinct h)
  have hidle (h : e.hasEffect = false) : e.Idle :=
    idle_of_nothing_set (hasEffect_eq_false.mp h).1 (hasEffect_eq_false.mp h).2
  exact ⟨⟨hidle, fun h => hback fun base id => h base (some id)⟩,
    fun h base id => h base (some id), fun h => hidle (hback h)⟩

end ExceptionEntry

/-! ### Exceptions from documents -/

theorem ExceptionDraft.metrics_distinct {excess : Shape.Excess} {d : Datum} {e : ExceptionDraft}
    (hread : ofDatum excess d = .ok e) : (e.metrics.map Prod.fst).Nodup := by
  have hstep (e : ExceptionDraft) (entry : String × Datum) (e' : ExceptionDraft)
      (he : (e.metrics.map Prod.fst).Nodup) (hfield : field excess e entry = .ok e') :
      (e'.metrics.map Prod.fst).Nodup := by
    unfold field at hfield
    split at hfield
    case h_2 =>
      obtain ⟨metrics, hmetrics, he'⟩ := bind_eq_ok_iff.mp hfield
      obtain rfl := Except.ok.inj he'
      exact (Shape.of_table hmetrics).1
    -- every other field leaves the metrics alone
    all_goals exact of_bind_pure (P := fun e => (e.metrics.map Prod.fst).Nodup) hfield fun _ => he
  exact Shape.record_keeps (P := fun e => (e.metrics.map Prod.fst).Nodup) hstep List.nodup_nil hread

/-- In every exception of a block, a metric has one entry at most. -/
def RuleDraft.Distinct (r : RuleDraft) : Prop :=
  ∀ e ∈ r.exceptions, (e.metrics.map Prod.fst).Nodup

theorem RuleDraft.distinct {excess : Shape.Excess} {d : Datum} {r : RuleDraft}
    (hread : ofDatum excess d = .ok r) : r.Distinct := by
  have hstep (r : RuleDraft) (entry : String × Datum) (r' : RuleDraft) (hr : r.Distinct)
      (hfield : field excess r entry = .ok r') : r'.Distinct := by
    unfold field at hfield
    split at hfield
    case h_5 =>
      obtain ⟨exceptions, hlist, hr'⟩ := bind_eq_ok_iff.mp hfield
      obtain rfl := Except.ok.inj hr'
      unfold Shape.list at hlist
      split at hlist
      · intro e he
        obtain ⟨d, hd⟩ := exists_of_mem_mapM hlist he
        exact ExceptionDraft.metrics_distinct hd
      · cases hlist
    case h_7 =>
      obtain rfl := Except.ok.inj hfield
      exact hr
    -- every other field leaves the exceptions alone
    all_goals exact of_bind_pure (P := RuleDraft.Distinct) hfield fun _ => hr
  unfold ofDatum at hread
  split at hread
  · exact Shape.record_keeps (P := RuleDraft.Distinct) hstep
      (fun e he => absurd he List.not_mem_nil) hread
  · cases hread

theorem topLevelDraft?_distinct {d : Datum} {r : RuleDraft} (hr : topLevelDraft? d = some r) :
    r.Distinct := by
  unfold topLevelDraft? at hr
  split at hr
  · next entries =>
    cases hread : RuleDraft.ofDatum .refused (.table entries) with
    | error reason =>
      rw [hread] at hr
      cases hr
    | ok read =>
      rw [hread] at hr
      obtain rfl := Option.some.inj hr
      exact RuleDraft.distinct hread
  · cases hr

theorem ConfigDraft.rules_distinct {excess : Shape.Excess} {d : Datum} {c : ConfigDraft}
    (hread : ofDatum excess d = .ok c) : ∀ r ∈ c.rules, r.2.Distinct := by
  have hstep (c : ConfigDraft) (entry : String × Datum) (c' : ConfigDraft)
      (hc : ∀ r ∈ c.rules, r.2.Distinct) (hfield : field excess c entry = .ok c') :
      ∀ r ∈ c'.rules, r.2.Distinct := by
    unfold field at hfield
    split at hfield
    case h_5 =>
      obtain ⟨rules, htable, hc'⟩ := bind_eq_ok_iff.mp hfield
      obtain rfl := Except.ok.inj hc'
      intro r hr
      obtain ⟨d, hd⟩ := (Shape.of_table htable).2 r hr
      exact RuleDraft.distinct hd
    case h_6 =>
      obtain rfl := Except.ok.inj hfield
      exact hc
    -- every other setting leaves the blocks under `rules` alone
    all_goals exact of_bind_pure (P := fun c => ∀ r ∈ c.rules, r.2.Distinct) hfield fun _ => hc
  unfold ofDatum at hread
  split at hread
  · split at hread
    · cases hread
    · exact Shape.record_keeps (P := fun c => ∀ r ∈ c.rules, r.2.Distinct) hstep
        (fun r hr => absurd hr List.not_mem_nil) hread
  · cases hread

theorem not_mem_faults {rule : String} {index : Nat} {e : ExceptionEntry}
    (faults : List ConfigError) : .entry rule index e ∉ faults.map LoadStep.fault := by
  intro he
  obtain ⟨_, -, hfault⟩ := List.mem_map.mp he
  cases hfault

theorem metrics_of_mem_block {rule name : String} {index : Nat} {e : ExceptionEntry}
    {r : RuleDraft} (hr : r.Distinct) (he : .entry rule index e ∈ blockSteps name r) :
    (e.metrics.map Prod.fst).Nodup := by
  have hexception := (List.mem_append.mp he).resolve_left (not_mem_faults _)
  obtain ⟨draft, hdraft, hstep⟩ := List.mem_map.mp hexception
  have hmetrics := hr draft.1 (List.fst_mem_of_mem_zipIdx hdraft)
  unfold exceptionStep at hstep
  split at hstep
  · cases hstep
  · split at hstep
    · cases hstep
      exact hmetrics
    · cases hstep

/-- Every exception that a load comes upon has one entry for a metric at most. -/
theorem ConfigDraft.metrics_distinct {excess : Shape.Excess} {d : Datum} {c : ConfigDraft}
    (hread : ofDatum excess d = .ok c) {rule : String} {index : Nat} {e : ExceptionEntry}
    (he : .entry rule index e ∈ c.steps) : (e.metrics.map Prod.fst).Nodup := by
  have hbehind := (List.mem_append.mp he).resolve_left (not_mem_faults _)
  have hblocks := (List.mem_append.mp hbehind).resolve_left (not_mem_faults _)
  rcases List.mem_append.mp hblocks with hunder | hbeside
  · obtain ⟨r, hr, he⟩ := List.mem_flatMap.mp hunder
    exact metrics_of_mem_block (rules_distinct hread r hr) he
  · obtain ⟨entry, -, he⟩ := List.mem_flatMap.mp hbeside
    have hsecond := (List.mem_append.mp he).resolve_left (not_mem_faults _)
    rcases List.mem_append.mp hsecond with hdouble | he
    · split at hdouble
      · cases List.mem_singleton.mp hdouble
      · cases hdouble
    · cases hr : topLevelDraft? entry.2 with
      | none =>
        rw [hr] at he
        cases he
      | some r =>
        rw [hr] at he
        exact metrics_of_mem_block (topLevelDraft?_distinct hr) he

/-- **Idle exceptions are told, each once.**  An exception has no effect, by what is written in
    it, exactly when it changes no thresholds for any metric.  In every document that can be
    read, a metric has one entry in an exception at most, so this holds of all exceptions that
    a load comes upon.  The load tells nothing but one warning for each of them without effect,
    in their order, up to the first fault, which is its error; without a fault it comes upon the
    exceptions of the configuration, rule by rule. -/
theorem ConfigDraft.tells_idle_exceptions {excess : Shape.Excess} {d : Datum} {c : ConfigDraft}
    (hread : ofDatum excess d = .ok c) :
    (∀ e : ExceptionEntry, (e.metrics.map Prod.fst).Nodup →
      (e.hasEffect = false ↔ e.Idle) ∧
        (e.Idle ↔ ∀ (base : Thresholds) (id : String),
          base.overlay (e.overrides (some id)) = base)) ∧
      (∀ rule index e, .entry rule index e ∈ c.steps →
        ((LoadStep.entry rule index e).warning? = some (LoadStep.idleWarning rule index e) ↔
          e.Idle)) ∧
      c.check.events = (c.steps.takeWhile LoadStep.isEntry).filterMap LoadStep.warning? ∧
      (∀ error, c.check.outcome = .error error ↔
        (c.steps.filterMap LoadStep.fault?).head? = some error) ∧
      ∀ config, c.check.outcome = .ok config →
        c.check.events = config.rules.flatMap fun r => r.2.exceptions.zipIdx.filterMap fun e =>
          if e.1.hasEffect then none else some (LoadStep.idleWarning r.1 e.2 e.1) := by
  have hfollows := c.check_follows (topLevel_nodup hread)
  have htold := c.events_check (topLevel_nodup hread)
  refine ⟨fun e => ExceptionEntry.hasEffect_eq_false_iff, fun rule index e he => ?_, htold, ?_, ?_⟩
  · rw [← (ExceptionEntry.hasEffect_eq_false_iff (metrics_distinct hread he)).1,
      LoadStep.warning?]
    cases e.hasEffect <;> simp
  · rw [c.faults_steps]
    exact hfollows.error_iff
  · intro config hconfig
    have hsound : c.faults = [] := hfollows.ok_iff.mp ⟨config, hconfig⟩
    rw [htold, LoadStep.told_of_no_fault (c.faults_steps.trans hsound),
      (hfollows.of_ok hconfig).steps hsound, List.filterMap_flatMap]
    refine List.flatMap_congr fun r _ => ?_
    rw [exceptionSteps, List.filterMap_map]
    rfl

/-- Two idle exceptions in two blocks, one of them with an empty entry for a metric; and behind
    them an exception without a pattern. -/
def idleDocument : Datum :=
  .table
    [("length", .table [("exceptions", .list [.table [("file", .text "c.dart")], .table []])]),
    ("rules", .table [("size", .table [("exceptions", .list
      [.table [("file", .text "a/*.dart"), ("metrics", .table [("lines", .table [])])],
        .table [("file", .text "b.dart"), ("warning", .number (.real (.infinity false)))]])])])]

def idleDraft : ConfigDraft :=
  ⟨none, none, [], none,
    [("size", ⟨none, .off, none,
      [⟨some "a/*.dart", .off, [("lines", .off)], none⟩,
        ⟨some "b.dart", ⟨some (.infinity false), none⟩, [], none⟩], [], []⟩)],
    [("length", .table [("exceptions", .list [.table [("file", .text "c.dart")], .table []])])]⟩

theorem ConfigDraft.tells_idle_exceptions_spoiled :
    ofDatum .ignored idleDocument = .ok idleDraft ∧
      idleDraft.check.events.map Event.message =
        ["rules.size.exceptions[0] (a/*.dart) sets no threshold and has no effect",
          "rules.length.exceptions[0] (c.dart) sets no threshold and has no effect"] ∧
      idleDraft.check.outcome = .error (.exceptionWithoutFile "length" 1) := by
  have hread : ofDatum .ignored idleDocument = .ok idleDraft := by rfl
  obtain ⟨-, -, hevents, herror, -⟩ := tells_idle_exceptions hread
  refine ⟨hread, ?_, ?_⟩
  · rw [hevents]
    rfl
  · rw [herror]
    rfl

end SourceAudit
