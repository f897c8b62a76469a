/-
  SourceAudit/Proofs/BlockFields.lean
  ===================================
  **The fields of a block.**

  In thresholds, exceptions and blocks of rules with no key twice, each field is read by
  itself, wherever it stands (`Thresholds.fields_ok_iff`, `ExceptionDraft.fields_ok_iff`,
  `RuleDraft.fields_ok_iff`).
-/
import SourceAudit.Proofs.Records

namespace SourceAudit

/-! ### Thresholds -/

namespace Thresholds

open Shape (fieldOr fieldOr_here fieldOr_other fieldOr_absent)

@[mk_iff]
structure Says (start : Thresholds) (entries : List (String × Datum)) (t : Thresholds) : Prop where
  warning : fieldOr "warning" (Shape.optional Shape.real) start.warning entries = .ok t.warning
  error : fieldOr "error" (Shape.optional Shape.real) start.error entries = .ok t.error

/-- One more entry in front. -/
theorem says_cons {start t : Thresholds} {key : String} {d : Datum}
    {rest : List (String × Datum)} (hnew : key ∉ rest.map Prod.fst) :
    (∃ mid, start.field (key, d) = .ok mid ∧ mid.Says rest t) ↔
      start.Says ((key, d) :: rest) t := by
  unfold field
  split
  · next hentry =>
    cases hentry
    rw [exists_read_iff]
    simp [says_iff, fieldOr_here, fieldOr_other, fieldOr_absent hnew]
  · next hentry =>
    cases hentry
    rw [exists_read_iff]
    simp [says_iff, fieldOr_here, fieldOr_other, fieldOr_absent hnew, and_comm]
  · next hw he =>
    have hwarning : "warning" ≠ key := fun h => hw d (h ▸ rfl)
    have herror : "error" ≠ key := fun h => he d (h ▸ rfl)
    rw [exists_pure_iff]
    simp [says_iff, fieldOr_other hwarning, fieldOr_other herror]

theorem fields_ok_iff {entries : List (String × Datum)} (hdistinct : (entries.map Prod.fst).Nodup)
    {start t : Thresholds} : entries.foldlM field start = .ok t ↔ start.Says entries t := by
  refine Shape.foldlM_ok_iff (P := Says) ?_ (fun _ _ _ _ _ => says_cons) hdistinct
  rintro ⟨w, e⟩ ⟨w', e'⟩
  simp [says_iff, fieldOr]

end Thresholds

namespace ExceptionDraft

open Shape (fieldOr fieldOr_here fieldOr_other fieldOr_absent)

@[mk_iff]
structure Says (excess : Shape.Excess) (start : ExceptionDraft)
    (entries : List (String × Datum)) (e : ExceptionDraft) : Prop where
  file : fieldOr "file" (Shape.optional Shape.text) start.file entries = .ok e.file
  thresholds : start.thresholds.Says entries e.thresholds
  metrics : fieldOr "metrics" (Shape.table (Thresholds.ofDatum excess)) start.metrics entries =
    .ok e.metrics
  reason : fieldOr "reason" (Shape.optional Shape.text) start.reason entries = .ok e.reason

theorem says_cons {excess : Shape.Excess} {start e : ExceptionDraft} {key : String} {d : Datum}
    {rest : List (String × Datum)} (hnew : key ∉ rest.map Prod.fst) :
    (∃ mid, start.field excess (key, d) = .ok mid ∧ mid.Says excess rest e) ↔
      start.Says excess ((key, d) :: rest) e := by
  unfold field
  split
  · next hentry =>
    cases hentry
    rw [exists_read_iff]
    simp [says_iff, Thresholds.says_iff, fieldOr_here, fieldOr_other, fieldOr_absent hnew]
  · next hentry =>
    cases hentry
    rw [exists_read_iff]
    simp [says_iff, Thresholds.says_iff, fieldOr_here, fieldOr_other, fieldOr_absent hnew,
      and_left_comm]
  · next hentry =>
    cases hentry
    rw [exists_read_iff]
    simp [says_iff, Thresholds.says_iff, fieldOr_here, fieldOr_other, fieldOr_absent hnew,
      and_comm, and_left_comm]
  · next hf hm hr =>
    have hfile : "file" ≠ key := fun h => hf d (h ▸ rfl)
    have hmetrics : "metrics" ≠ key := fun h => hm d (h ▸ rfl)
    have hreason : "reason" ≠ key := fun h => hr d (h ▸ rfl)
    rw [exists_read_iff, says_iff, ← Thresholds.says_cons hnew, fieldOr_other hfile,
      fieldOr_other hmetrics, fieldOr_other hreason]
    constructor
    · rintro ⟨t, ht, h⟩
      exact ⟨h.file, ⟨t, ht, h.thresholds⟩, h.metrics, h.reason⟩
    · rintro ⟨hfile, ⟨t, ht, hthresholds⟩, hmetrics, hreason⟩
      exact ⟨t, ht, hfile, hthresholds, hmetrics, hreason⟩

theorem fields_ok_iff {excess : Shape.Excess} {entries : List (String × Datum)}
    (hdistinct : (entries.map Prod.fst).Nodup) {start e : ExceptionDraft} :
    entries.foldlM (field excess) start = .ok e ↔ start.Says excess entries e := by
  refine Shape.foldlM_ok_iff (P := Says excess) ?_ (fun _ _ _ _ _ => says_cons) hdistinct
  rintro ⟨f, ⟨w, e⟩, m, r⟩ ⟨f', ⟨w', e'⟩, m', r'⟩
  simp [says_iff, Thresholds.says_iff, fieldOr]

end ExceptionDraft

namespace RuleDraft

open Shape (fieldOr fieldOr_here fieldOr_other fieldOr_absent)

/-- The entries that are no field of a rule. -/
def others (entries : List (String × Datum)) : List (String × Datum) :=
  entries.filter fun e => e.1 ∉ fields

@[mk_iff]
structure Says (excess : Shape.Excess) (start : RuleDraft) (entries : List (String × Datum))
    (r : RuleDraft) : Prop where
  enabled : fieldOr "enabled" (Shape.optional Shape.bool) start.enabled entries = .ok r.enabled
  thresholds : start.thresholds.Says entries r.thresholds
  level : fieldOr "log_level" (Shape.optional Shape.text) start.level entries = .ok r.level
  exceptions : fieldOr "exceptions" (Shape.list (ExceptionDraft.ofDatum excess)) start.exceptions
    entries = .ok r.exceptions
  metrics : fieldOr "metrics" (Shape.table (Thresholds.ofDatum excess)) start.metrics entries =
    .ok r.metrics
  options : r.options = (others entries).foldl
    (fun known e => Entries.put e.1 e.2.canonical known) start.options

theorem says_cons {excess : Shape.Excess} {start r : RuleDraft} {key : String} {d : Datum}
    {rest : List (String × Datum)} (hnew : key ∉ rest.map Prod.fst) :
    (∃ mid, start.field excess (key, d) = .ok mid ∧ mid.Says excess rest r) ↔
      start.Says excess ((key, d) :: rest) r := by
  have hknown : key ∈ fields → others ((key, d) :: rest) = others rest := by
    intro h
    simp [others, h]
  unfold field
  split
  case h_7 henabled hwarning herror hlevel hexceptions hmetrics hentry =>
    cases hentry
    have hunknown : key ∉ fields := by
      simpa [fields] using ⟨henabled, hwarning, herror, hlevel, hexceptions, hmetrics⟩
    have hother : others ((key, d) :: rest) = (key, d) :: others rest :=
      List.filter_cons_of_pos (decide_eq_true hunknown)
    rw [exists_pure_iff]
    simp [says_iff, Thresholds.says_iff, fieldOr_other (Ne.symm henabled),
      fieldOr_other (Ne.symm hwarning), fieldOr_other (Ne.symm herror),
      fieldOr_other (Ne.symm hlevel), fieldOr_other (Ne.symm hexceptions),
      fieldOr_other (Ne.symm hmetrics), hother]
  all_goals
    next hentry =>
    cases hentry
    have hsame := hknown (by decide)
    rw [exists_read_iff]
    simp only [says_iff, Thresholds.says_iff, fieldOr_here, fieldOr_other, fieldOr_absent hnew,
      hsame, ne_eq, String.reduceEq, not_false_eq_true, Except.ok.injEq]
    grind

theorem fields_ok_iff {excess : Shape.Excess} {entries : List (String × Datum)}
    (hdistinct : (entries.map Prod.fst).Nodup) {start r : RuleDraft} :
    entries.foldlM (field excess) start = .ok r ↔ start.Says excess entries r := by
  refine Shape.foldlM_ok_iff (P := Says excess) ?_ (fun _ _ _ _ _ => says_cons) hdistinct
  rintro ⟨e, ⟨w, r⟩, l, x, m, o⟩ ⟨e', ⟨w', r'⟩, l', x', m', o'⟩
  simp [says_iff, Thresholds.says_iff, fieldOr, others, eq_comm]

end RuleDraft

end SourceAudit
