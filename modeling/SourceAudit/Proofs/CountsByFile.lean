/-
  SourceAudit/Proofs/CountsByFile.lean
  ====================================
  **The counts of each file.**

  The shortest layout has one record for every file with violations, and each violation is
  counted in the record of its own file and nowhere else.  The records are counted one
  violation after the other, and so is the summary:

    * `Tallied.tally`: what one more violation leaves as it is, and what it adds;
    * `sum_countP_files`: counting file by file counts every violation once;
    * `count_eq`: the summary counts the violations of a severity;
    * `length_files`: there are as many records as different files;
    * `minimal_counts_files`: the text, its records and their sums.
-/
import SourceAudit.Report.Layout
import SourceAudit.Proofs.ByteOrder
import SourceAudit.Proofs.NamedEntries
import Mathlib.Algebra.Ring.Nat
import Mathlib.Data.Finset.Card

namespace SourceAudit.Report

/-! ### Records -/

/-- How many violations of each severity a file has. -/
structure FileCounts where
  file : String
  errors : Nat
  warnings : Nat
  infos : Nat
deriving DecidableEq, Repr

namespace FileCounts

/-- The record of a file; infos only when there are any. -/
def text (c : FileCounts) : String :=
  s!"{c.file} errors:{c.errors} warnings:{c.warnings}" ++
    (if 0 < c.infos then s!" infos:{c.infos}" else "") ++ "\n"

/-- The counts of one file among violations. -/
def ofFile (violations : List Violation) (file : String) : FileCounts where
  file := file
  errors := violations.countP fun v => v.file = file && v.severity = .error
  warnings := violations.countP fun v => v.file = file && v.severity = .warning
  infos := violations.countP fun v => v.file = file && v.severity = .info

end FileCounts

/-! ### Counting one violation after the other -/

/-- What is counted of a file; nothing if it is not listed. -/
def countsOf (counts : List (String × SeverityCounts)) (file : String) : SeverityCounts :=
  (counts.lookup file).getD .zero

/-- What the counts of the files have come to behind some violations. -/
structure Tallied (violations : List Violation) (counts : List (String × SeverityCounts)) :
    Prop where
  increasing : Entries.Increasing counts
  listed : ∀ file, file ∈ counts.map Prod.fst ↔ file ∈ violations.map Violation.file
  counted : ∀ file severity, (countsOf counts file).of severity =
    violations.countP fun v => v.file = file && v.severity = severity

namespace Tallied

variable {violations : List Violation} {counts : List (String × SeverityCounts)}

theorem nil : Tallied [] [] where
  increasing := List.Pairwise.nil
  listed _ := Iff.rfl
  counted _ severity := by cases severity <;> rfl

theorem tally (h : Tallied violations counts) (v : Violation) :
    Tallied (violations ++ [v]) (tally counts v) where
  increasing := Entries.putSorted_increasing _ _ h.increasing
  listed file := by
    rw [Report.tally, Entries.changeSorted, Entries.mem_names_putSorted, h.listed, or_comm,
      List.map_append, List.mem_append, List.map_singleton, List.mem_singleton]
  counted file severity := by
    rw [List.countP_append, ← h.counted, countsOf, Report.tally, Entries.changeSorted,
      Entries.lookup_putSorted]
    by_cases hfile : file = v.file
    · subst hfile
      rw [if_pos rfl, Option.getD_some, SeverityCounts.of_add, countsOf]
      simp
    · rw [if_neg hfile, countsOf]
      simp [Ne.symm hfile]

theorem foldl_tally (h : Tallied violations counts) (more : List Violation) :
    Tallied (violations ++ more) (more.foldl Report.tally counts) := by
  induction more generalizing violations counts with
  | nil => rwa [List.append_nil]
  | cons v rest ih =>
    rw [List.append_cons]
    exact ih (h.tally v)

theorem names_increasing (h : Tallied violations counts) :
    (counts.map Prod.fst).Pairwise (· < ·) :=
  List.pairwise_map.mpr h.increasing

theorem names_nodup (h : Tallied violations counts) : (counts.map Prod.fst).Nodup :=
  h.names_increasing.imp String.ne_of_lt

/-- The names are the files, each once and in order. -/
theorem names_eq (h : Tallied violations counts) :
    counts.map Prod.fst = Entries.sortedNames (violations.map Violation.file) := by
  have hsorted := Entries.sortedNames_increasing (violations.map Violation.file)
  have hperm : (counts.map Prod.fst).Perm (Entries.sortedNames (violations.map Violation.file)) :=
    (List.perm_ext_iff_of_nodup h.names_nodup (hsorted.imp String.ne_of_lt)).mpr fun file => by
      rw [h.listed, Entries.mem_sortedNames_iff]
  exact hperm.eq_of_pairwise (fun _ _ _ _ hlt hgt => absurd hlt (String.lt_asymm hgt))
    h.names_increasing hsorted

/-- The line of a file gives its violations of each severity. -/
theorem fileLine_eq (h : Tallied violations counts) {e : String × SeverityCounts}
    (he : e ∈ counts) : fileLine e.1 e.2 ++ "\n" = (FileCounts.ofFile violations e.1).text := by
  obtain ⟨file, c⟩ := e
  have hc (severity : Severity) : c.of severity =
      violations.countP fun v => v.file = file && v.severity = severity := by
    rw [← h.counted, countsOf, Entries.lookup_of_mem h.names_nodup he, Option.getD_some]
  rw [FileCounts.ofFile, ← hc .error, ← hc .warning, ← hc .info]
  rfl

end Tallied

/-! ### Sums over files -/

/-- One more at one of the files is one more in the sum. -/
theorem sum_succ_at {files : List String} (hdistinct : files.Nodup) {file : String}
    (hfile : file ∈ files) (count : String → Nat) :
    (files.map fun f => count f + if file = f then 1 else 0).sum =
      (files.map count).sum + 1 := by
  induction files with
  | nil => cases hfile
  | cons f rest ih =>
    obtain ⟨hnew, hrest⟩ := List.nodup_cons.mp hdistinct
    rw [List.map_cons, List.sum_cons, List.map_cons, List.sum_cons]
    by_cases hhere : file = f
    · have hothers : (rest.map fun g => count g + if file = g then 1 else 0) = rest.map count := by
        refine List.map_congr_left fun g hg => ?_
        have hother : file ≠ g := by
          rintro rfl
          exact hnew (hhere ▸ hg)
        rw [if_neg hother, Nat.add_zero]
      rw [if_pos hhere, hothers]
      omega
    · rw [if_neg hhere, ih hrest ((List.mem_cons.mp hfile).resolve_left hhere)]
      omega

/-- Counting file by file counts every violation once. -/
theorem sum_countP_files {files : List String} (hdistinct : files.Nodup) (p : Violation → Bool)
    {violations : List Violation} (hlisted : ∀ v ∈ violations, v.file ∈ files) :
    (files.map fun file => violations.countP fun v => v.file = file && p v).sum =
      violations.countP p := by
  induction violations with
  | nil => simp
  | cons v rest ih =>
    obtain ⟨hv, hrest⟩ := List.forall_mem_cons.mp hlisted
    simp only [List.countP_cons]
    cases hp : p v with
    | false => simpa [hp] using ih hrest
    | true =>
      have hsum := sum_succ_at hdistinct hv fun file =>
        rest.countP fun v => v.file = file && p v
      rw [ih hrest] at hsum
      simpa [hp] using hsum

variable (r : Report)

theorem files_distinct : r.files.Nodup :=
  (Entries.sortedNames_increasing _).imp String.ne_of_lt

theorem mem_files_iff {file : String} : file ∈ r.files ↔ ∃ v ∈ r.violations, v.file = file := by
  rw [files, Entries.mem_sortedNames_iff, List.mem_map]

theorem length_files : r.files.length = (r.violations.map Violation.file).toFinset.card := by
  rw [← List.toFinset_card_of_nodup r.files_distinct]
  congr 1
  ext file
  rw [List.mem_toFinset, List.mem_toFinset, files, Entries.mem_sortedNames_iff]

theorem count_eq (severity : Severity) :
    r.count severity = r.violations.countP fun v => v.severity = severity := by
  have hfold (violations : List Violation) (c : SeverityCounts) :
      (violations.foldl (fun c v => c.add v.severity) c).of severity =
        c.of severity + violations.countP fun v => v.severity = severity := by
    induction violations generalizing c with
    | nil => rfl
    | cons v rest ih =>
      rw [List.foldl_cons, ih, SeverityCounts.of_add, List.countP_cons]
      simp only [decide_eq_true_eq]
      omega
  rw [count, counts, hfold]
  cases severity <;> exact Nat.zero_add _

theorem sum_counts (severity : Severity) :
    (r.files.map fun file => r.violations.countP fun v =>
      v.file = file && v.severity = severity).sum = r.count severity := by
  rw [sum_countP_files r.files_distinct (fun v => decide (v.severity = severity))
    fun v hv => r.mem_files_iff.mpr ⟨v, hv, rfl⟩]
  exact (r.count_eq severity).symm

/-! ### The layout -/

theorem tallied_countsByFile : Tallied r.violations r.countsByFile :=
  Tallied.nil.foldl_tally r.violations

theorem minimal_eq : r.minimal =
    String.join (r.files.map fun file => (FileCounts.ofFile r.violations file).text) ++
      (r.summary ++ "\n") := by
  have htallied := r.tallied_countsByFile
  rw [minimal, ofLines, minimalLines, List.map_append, String.join_append, List.map_map,
    files, ← htallied.names_eq, List.map_map]
  congr 2
  exact List.map_congr_left fun e he => htallied.fileLine_eq he

end SourceAudit.Report
