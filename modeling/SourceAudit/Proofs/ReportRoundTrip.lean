/-
  SourceAudit/Proofs/ReportRoundTrip.lean
  =======================================
  **A report is read back from its JSON document.**

  Every text of a report is read back, and so are its counts and every whole magnitude
  below `10 ^ 14`; a magnitude that is not finite is written as `null` and read as absent
  (`ofJson?_json`).
-/
import SourceAudit.Proofs.Json.Numbers
import SourceAudit.Report.Document

namespace SourceAudit

open Json (asPrinted printedItems printedEntries)

/-! ### What is read back -/

/-- The violation with its magnitude when that is finite, and without one otherwise. -/
def Violation.withFiniteMagnitude (v : Violation) : Violation :=
  { v with magnitude := v.magnitude.filter Binary64.isFinite }

def Report.withFiniteMagnitudes (r : Report) : Report :=
  { r with violations := r.violations.map Violation.withFiniteMagnitude }

theorem Report.withFiniteMagnitudes_eq {r : Report}
    (hfinite : ∀ v ∈ r.violations, ∀ x, v.magnitude = some x → x.isFinite = true) :
    r.withFiniteMagnitudes = r := by
  have hsame : ∀ v ∈ r.violations, v.withFiniteMagnitude = id v := by
    intro v hv
    have hmagnitude := hfinite v hv
    obtain ⟨file, rule, severity, message, _ | x⟩ := v
    · rfl
    · rw [Violation.withFiniteMagnitude, Option.filter_some_pos (hmagnitude x rfl)]
      rfl
  rw [withFiniteMagnitudes, List.map_congr_left hsame, List.map_id]

/-! ### Records -/

theorem Violation.ofDatum_asPrinted (v : Violation) :
    Violation.ofDatum (asPrinted v.toDatum) = .ok v.withFiniteMagnitude := by
  obtain ⟨file, rule, severity, message, magnitude⟩ := v
  cases magnitude with
  | none => cases severity <;> rfl
  | some x =>
    have hshown : asPrinted (toDatum ⟨file, rule, severity, message, some x⟩) = .table
        [("file_path", .text file), ("rule_name", .text rule), ("severity", .text severity.name),
          ("message", .text message), ("magnitude", asPrinted (.number (.real x)))] := rfl
    have hkept : (some x).filter Binary64.isFinite = if x.isFinite then some x else none := rfl
    rw [hshown, withFiniteMagnitude, hkept, asPrinted]
    cases x.isFinite <;> cases severity <;> rfl

theorem Diagnostic.ofDatum_asPrinted (d : Diagnostic) :
    Diagnostic.ofDatum (asPrinted d.toDatum) = .ok d := by
  obtain ⟨rule, file, message⟩ := d
  cases rule <;> cases file <;> rfl

/-- The items of a list, each read back. -/
theorem list_asPrinted {α : Type} (decode : Datum → Except ShapeError α) (written : α → Datum)
    (kept : α → α) (hitem : ∀ a, decode (asPrinted (written a)) = .ok (kept a)) (items : List α) :
    Shape.list decode (asPrinted (.list (items.map written))) = .ok (items.map kept) := by
  rw [asPrinted, Shape.list]
  induction items with
  | nil => rfl
  | cons a items ih =>
    rw [List.map_cons, printedItems, List.mapM_cons, hitem, ih]
    rfl

theorem Report.ofDatum_asPrinted (r : Report) :
    Report.ofDatum (asPrinted r.toDatum) = .ok r.withFiniteMagnitudes := by
  obtain ⟨violations, diagnostics, filesChecked, evicted⟩ := r
  have hviolations := list_asPrinted Violation.ofDatum Violation.toDatum
    Violation.withFiniteMagnitude Violation.ofDatum_asPrinted violations
  have hdiagnostics := list_asPrinted Diagnostic.ofDatum Diagnostic.toDatum id
    Diagnostic.ofDatum_asPrinted diagnostics
  rw [List.map_id] at hdiagnostics
  have hfields : List.foldlM Draft.step ⟨none, none, none, none⟩
      [("violations", asPrinted (.list (violations.map Violation.toDatum))),
        ("diagnostics", asPrinted (.list (diagnostics.map Diagnostic.toDatum))),
        ("files_checked", .number (.integer filesChecked)),
        ("evicted", .number (.integer evicted))] =
      .ok ⟨some (violations.map Violation.withFiniteMagnitude), some diagnostics,
        some filesChecked, some evicted⟩ := by
    simp only [List.foldlM_cons, Draft.step, hviolations, hdiagnostics]
    rfl
  have hrecord : Shape.record "struct AnalysisReport" .refused
      ["violations", "diagnostics", "files_checked", "evicted"] Draft.step
      ⟨none, none, none, none⟩
      (asPrinted (toDatum ⟨violations, diagnostics, filesChecked, evicted⟩)) = _ := hfields
  rw [ofDatum, hrecord]
  rfl

/-! ### Reports -/

theorem Report.depth_toDatum (r : Report) : r.toDatum.depth ≤ Json.maxOpen := by
  have hviolation : ∀ v : Violation, v.toDatum.depth = 1 := by
    rintro ⟨file, rule, severity, message, _ | x⟩ <;> rfl
  have hdiagnostic : ∀ d : Diagnostic, d.toDatum.depth = 1 := by
    rintro ⟨_ | rule, _ | file, message⟩ <;> rfl
  have hviolations : Datum.depthItems (r.violations.map Violation.toDatum) ≤ 1 := by
    simp [Datum.depthItems_le_iff, hviolation]
  have hdiagnostics : Datum.depthItems (r.diagnostics.map Diagnostic.toDatum) ≤ 1 := by
    simp [Datum.depthItems_le_iff, hdiagnostic]
  simp only [toDatum, Datum.depth, Datum.depthEntries, Json.maxOpen]
  omega

theorem Violation.number_inside {v : Violation} {n : Number}
    (inside : Datum.Inside (.number n) v.toDatum) : ∃ x, v.magnitude = some x ∧ n = .real x := by
  obtain ⟨file, rule, severity, message, _ | x⟩ := v
  · simp [toDatum, optionalField] at inside
  · exact ⟨x, rfl, by simpa [toDatum, optionalField] using inside⟩

theorem Diagnostic.no_number_inside {d : Diagnostic} {n : Number} :
    ¬ Datum.Inside (.number n) d.toDatum := by
  obtain ⟨_ | rule, _ | file, message⟩ := d <;> simp [toDatum, optionalField]

/-- The numbers of a report are its magnitudes and its two counts. -/
theorem Report.number_inside {r : Report} {n : Number}
    (inside : Datum.Inside (.number n) r.toDatum) :
    (∃ v ∈ r.violations, ∃ x, v.magnitude = some x ∧ n = .real x) ∨
    n = .integer r.filesChecked ∨ n = .integer r.evicted := by
  have hplaces : (∃ v ∈ r.violations, Datum.Inside (.number n) v.toDatum) ∨
      n = .integer r.filesChecked ∨ n = .integer r.evicted := by
    simpa [toDatum, Diagnostic.no_number_inside] using inside
  rcases hplaces with ⟨v, hv, inside⟩ | hcount
  · exact .inl ⟨v, hv, Violation.number_inside inside⟩
  · exact .inr hcount

/-- A report is read back, without the magnitudes that are not finite. -/
theorem Report.ofJson?_json (r : Report) (hfiles : r.filesChecked < 2 ^ 64)
    (hevicted : r.evicted < 2 ^ 64)
    (hmagnitudes : ∀ v ∈ r.violations, ∀ x, v.magnitude = some x → x.isFinite = true →
      ∃ i : ℤ, x.value = i ∧ |i| < 10 ^ 14) :
    ofJson? r.json = some r.withFiniteMagnitudes ∧
    ((∀ v ∈ r.violations, ∀ x, v.magnitude = some x → x.isFinite = true) →
      ofJson? r.json = some r) := by
  have hcount : ∀ n : ℕ, n < 2 ^ 64 → Json.ReadsBack (.integer n) := fun n hn =>
    Json.readsBack_integer (Nat.le_of_lt_succ hn)
  have hintegers : ∀ i, Datum.Inside (.number (.integer i)) r.toDatum →
      Json.ReadsBack (.integer i) := by
    intro i inside
    rcases number_inside inside with ⟨_, _, _, _, hreal⟩ | hfilesChecked | hevictedCount
    · cases hreal
    · rw [hfilesChecked]
      exact hcount r.filesChecked hfiles
    · rw [hevictedCount]
      exact hcount r.evicted hevicted
  have hreals : ∀ x, Datum.Inside (.number (.real x)) r.toDatum → x.isFinite = true →
      Json.ReadsBack (.real x) := by
    intro x inside hfinite
    rcases number_inside inside with ⟨v, hv, y, hmagnitude, hsame⟩ | hinteger | hinteger
    · cases hsame
      obtain ⟨i, hvalue, hsmall⟩ := hmagnitudes v hv x hmagnitude hfinite
      rw [Int.abs_eq_natAbs] at hsmall
      exact Json.readsBack_real hfinite (Binary64.distance_eq_natAbs hvalue) (by omega)
    · cases hinteger
    · cases hinteger
  have hread : ofJson? r.json = some r.withFiniteMagnitudes := by
    rw [ofJson?, json, Json.read?_pretty r.depth_toDatum hintegers hreals]
    exact congrArg Except.toOption r.ofDatum_asPrinted
  refine ⟨hread, fun hfinite => ?_⟩
  rw [hread, withFiniteMagnitudes_eq hfinite]

/-- Quotes, a backslash, a control character and a letter beyond ASCII in the texts, and
    magnitudes that are whole, negative zero, missing and not a number. -/
def Report.motley : Report where
  violations :=
    [⟨"lib/\"odd\"\\name.dart", "metrics", .error, "tab\there", some (Binary64.ofNat 300)⟩,
      ⟨"lib/größe.dart", "metrics", .warning, "bell \u0007", some (Binary64.zero true)⟩,
      ⟨"", "", .info, "", none⟩,
      ⟨"lib/b.dart", "metrics", .warning, "not a number", some (Binary64.nan true)⟩]
  diagnostics := [⟨some "metrics", none, "line\nbreak"⟩, ⟨none, none, ""⟩]
  filesChecked := 3
  evicted := 0

theorem Report.ofJson?_json_motley :
    ofJson? motley.json = some motley.withFiniteMagnitudes ∧
      motley.withFiniteMagnitudes.violations.map Violation.magnitude =
        [some (Binary64.ofNat 300), some (Binary64.zero true), none, none] := by
  refine ⟨(ofJson?_json motley (by decide) (by decide) ?_).1, rfl⟩
  have hthree : (Binary64.ofNat 300).value = (300 : ℤ) := (Binary64.ofNat_isExact (by decide)).2
  have hzero : (Binary64.zero true).value = (0 : ℤ) := by
    simp [Binary64.value, Binary64.distance_zero]
  intro v hv x hx hfinite
  simp only [motley, List.mem_cons, List.not_mem_nil, or_false] at hv
  rcases hv with rfl | rfl | rfl | rfl
  · cases hx
    exact ⟨300, hthree, by decide⟩
  · cases hx
    exact ⟨0, hzero, by decide⟩
  · cases hx
  · cases hx
    cases hfinite

end SourceAudit
