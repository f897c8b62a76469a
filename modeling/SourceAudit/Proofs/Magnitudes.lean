/-
  SourceAudit/Proofs/Magnitudes.lean
  ==================================
  **What violations weigh.**

  A violation with a magnitude shows a measure of one of the files (`Registered.of_mem_alone`),
  and a measure is a whole number of lines or characters or a percentage that was rounded to
  one decimal place.  As long as the file is not larger than a memory, such a measure is a
  tenth of a natural number below `10 ^ 15` (`FileContext.tenth_of_measures`), so it is read
  back from a report (`Analyzer.tenth_of_mem_report`).
-/
import SourceAudit.Proofs.Binary64.Tenths
import SourceAudit.Proofs.Gitignore.Run
import SourceAudit.Proofs.LineKinds
import SourceAudit.Proofs.Ranking
import SourceAudit.Proofs.WrittenFiles

namespace SourceAudit

/-! ### Counts of lines and characters -/

namespace LineCount

theorem ofText_bounds (extension : Option String) (text : List Char) :
    (ofText extension text).code + (ofText extension text).comment ≤ text.length ∧
      (ofText extension text).longest ≤ text.length := by
  have hlines := Text.length_lines_le text
  have htotal := total_ofText extension text
  rw [total] at htotal
  refine ⟨by omega, ?_⟩
  rcases (isLongest_ofText extension text).attained with ⟨-, hzero⟩ | ⟨line, hline, hlength⟩
  · exact hzero.trans_le (Nat.zero_le _)
  · exact hlength.symm.trans_le (Text.length_line_le hline)

end LineCount

/-! ### Measures -/

open Binary64 (tenth)

theorem Metric.percentage_zero {whole : ℕ} (hwhole : 0 < whole)
    (hbits : whole < 2 * Binary64.hiddenBit) : Metric.percentage 0 whole = tenth 0 := by
  have hwhole' := Binary64.between_ofNat hbits
  have hproduct : (Binary64.ofNat 0).mul (Binary64.ofNat 100) = Binary64.zero false := by decide
  have hshare : (Binary64.zero false).div (Binary64.ofNat whole) = Binary64.zero false := by
    refine Binary64.div_eq rfl hwhole'.finite rfl ?_ ?_ ?_
    · rw [← Bool.not_eq_true, Binary64.isZero_iff, (Binary64.ofNat_isExact hbits).2]
      exact Nat.cast_ne_zero.mpr (Nat.ne_of_gt hwhole)
    · rw [hwhole'.positive]
      rfl
    · rw [Binary64.distance_zero, zero_div]
  have hrounded : ((Binary64.zero false).mul (Binary64.ofNat 10)).roundHalfAway =
      Binary64.ofNat 0 := by decide
  rw [Metric.percentage, hproduct, hshare, hrounded]
  rfl

theorem bits_of_small {n : ℕ} (hn : n < 10 ^ 14) : n < 2 * Binary64.hiddenBit :=
  hn.trans (show 10 ^ 14 < 2 * Binary64.hiddenBit by decide)

theorem ordinary_of_tiny {v : ℚ} (hv : 1 / 10 ^ 14 ≤ v) : (2 : ℚ) ^ (-100 : ℤ) ≤ v := by
  calc (2 : ℚ) ^ (-100 : ℤ) ≤ 2 ^ (-50 : ℤ) := zpow_le_zpow_right₀ one_le_two (by decide)
    _ ≤ 1 / 10 ^ 14 := by norm_num
    _ ≤ v := hv

/-- A share in percent, before it is rounded: all numbers on the way have an ordinary size. -/
theorem share_between {part whole : ℕ} (hpos : 0 < part) (hpart : part ≤ whole)
    (hsmall : whole < 10 ^ 14) :
    Binary64.Between (((Binary64.ofNat part).mul (Binary64.ofNat 100)).div (Binary64.ofNat whole))
      (1 / 10 ^ 14) 400 := by
  have hone : (1 : ℚ) ≤ part := mod_cast hpos
  have hratio : (part : ℚ) ≤ whole := mod_cast hpart
  have hmost : (whole : ℚ) < 10 ^ 14 := mod_cast hsmall
  have hwhole : (0 : ℚ) < whole := by linarith
  have hhuge : (10 : ℚ) ^ 17 < 2 ^ (100 : ℤ) := by norm_num
  have hproduct : Binary64.Between ((Binary64.ofNat part).mul (Binary64.ofNat 100))
      50 (200 * part) := by
    have hpart' := Binary64.between_ofNat (bits_of_small (hpart.trans_lt hsmall))
    have hhundred := Binary64.between_ofNat (n := 100) (by decide)
    refine (hpart'.mul hhundred ?_ ?_ (ordinary_of_tiny ?_) ?_).weaken ?_ ?_
    · positivity
    · positivity
    · push_cast
      linarith
    · push_cast
      linarith
    · push_cast
      linarith
    · push_cast
      linarith
  have hlow : (1 : ℚ) / 10 ^ 14 ≤ 50 / whole / 2 := by
    rw [div_div, div_le_div_iff₀ (by positivity) (by positivity)]
    linarith
  have hhigh : (200 : ℚ) * part / whole ≤ 200 := by
    rw [div_le_iff₀ hwhole]
    linarith
  refine (hproduct.div (Binary64.between_ofNat (bits_of_small hsmall)) ?_ hwhole
    (ordinary_of_tiny ?_) ?_).weaken hlow ?_
  · positivity
  · linarith
  · linarith
  · linarith

/-- A percentage of lines is rounded to a tenth. -/
theorem Metric.percentage_eq_tenth {part whole : ℕ} (hpart : part ≤ whole) (hwhole : 0 < whole)
    (hsmall : whole < 10 ^ 14) : ∃ r < 10 ^ 15, Metric.percentage part whole = tenth r := by
  rcases Nat.eq_zero_or_pos part with rfl | hpos
  · exact ⟨0, by decide, Metric.percentage_zero hwhole (bits_of_small hsmall)⟩
  · have hten := Binary64.between_ofNat (n := 10) (by decide)
    have hhuge : (10 : ℚ) ^ 17 < 2 ^ (100 : ℤ) := by norm_num
    have hscaled := (share_between hpos hpart hsmall).mul hten (by positivity) (by positivity)
      (ordinary_of_tiny (by push_cast; linarith)) (by push_cast; linarith)
    obtain ⟨r, hrounded, hr⟩ := hscaled.roundHalfAway (by norm_num [Binary64.hiddenBit])
    refine ⟨r, ?_, ?_⟩
    · have : (r : ℚ) < ((10 ^ 15 : ℕ) : ℚ) := by
        push_cast at hr ⊢
        linarith
      exact_mod_cast this
    · rw [Metric.percentage, hrounded]
      rfl

/-- A count is a tenth of ten times as much. -/
theorem ofNat_eq_tenth {n : ℕ} (hn : n < 10 ^ 14) :
    ∃ r < 10 ^ 15, Binary64.ofNat n = tenth r := by
  obtain ⟨hfinite, hdistance⟩ :=
    Binary64.ofNat_isExact (bits_of_small hn)
  refine ⟨10 * n, by omega, ?_⟩
  exact (Binary64.tenth_eq hfinite hdistance hn (Binary64.negative_ofQuotient ..)).symm

theorem FileContext.tenth_of_measures {f : FileContext} {x : Binary64} (hx : f.Measures x)
    (hsmall : f.content.length < 10 ^ 14) : ∃ r < 10 ^ 15, x = tenth r := by
  have hchars : f.content.toList.length < 10 ^ 14 := by rwa [String.length_toList]
  obtain ⟨hlines, hlongest⟩ := LineCount.ofText_bounds f.extension? f.content.toList
  rcases hx with rfl | ⟨m, hm⟩
  · exact ofNat_eq_tenth ((Text.length_lines_le _).trans_lt hchars)
  · cases m with
    | sourceLines =>
      obtain rfl := Option.some.inj hm
      exact ofNat_eq_tenth (by omega)
    | longestLine =>
      obtain rfl := Option.some.inj hm
      exact ofNat_eq_tenth (by omega)
    | commentShare =>
      rw [Metric.value?] at hm
      split at hm
      · cases hm
      · obtain rfl := Option.some.inj hm
        exact Metric.percentage_eq_tenth (by omega) (by omega) (by omega)

/-! ### Magnitudes in a report -/

/-- Every text of the tree fits into a memory.  Counts of much more than `10 ^ 14` could not be
    relied on: ten times such a count may have no binary64 number of its own. -/
def FileTree.FitsMemory (tree : FileTree) : Prop :=
  ∀ names text, tree.at? names = some (.file (.text text)) → text.length < 10 ^ 14

theorem FileTree.fitsMemory_text {text : String} (htext : text.length < 10 ^ 14) :
    (FileTree.file (.text text)).FitsMemory := by
  intro names other hat
  cases names with
  | nil =>
    cases hat
    exact htext
  | cons name rest =>
    rw [FileTree.at?_file (List.cons_ne_nil _ _)] at hat
    cases hat

theorem FileTree.fitsMemory_directory {entries : List (String × FileTree)}
    (hentries : ∀ e ∈ entries, e.2.FitsMemory) : (FileTree.directory entries).FitsMemory := by
  intro names text hat
  cases names with
  | nil => cases hat
  | cons name rest =>
    rw [FileTree.at?, Option.bind_eq_some_iff] at hat
    obtain ⟨inner, hinner, hat⟩ := hat
    exact hentries (name, inner) (Entries.mem_of_lookup hinner) rest text hat

theorem Run.text_of_mem_readable {w : Workspace} {resolver : Resolver} {files : List Path}
    {f : FileContext} (hf : f ∈ Run.readable w resolver files) :
    ∃ names, w.tree.at? names = some (.file (.text f.content)) := by
  obtain ⟨file, -, hfile⟩ := List.mem_filterMap.mp hf
  obtain ⟨content, hcontent, rfl⟩ := Option.map_eq_some_iff.mp hfile
  cases hread : w.readText (resolver.base.join file) with
  | error e =>
    rw [hread] at hcontent
    cases hcontent
  | ok text =>
    rw [hread] at hcontent
    obtain rfl := Option.some.inj hcontent
    obtain ⟨names, -, hat⟩ := Workspace.readText_eq_ok_iff.mp hread
    exact ⟨names, hat⟩

theorem Violation.capped_sublist (cap : Option Int) (found : List Violation) :
    (Violation.capped cap found).1.Sublist found := by
  have hall : (found.zipIdx.map Prod.fst).Sublist found := by rw [List.zipIdx_map_fst]
  rw [Violation.capped_zipIdx]
  exact (List.filter_sublist.map Prod.fst).trans hall

namespace Analyzer

/-- A violation that is reported weighs a tenth of a whole number, if it weighs anything. -/
theorem tenth_of_mem_report {a : Analyzer Metric.Told} (hbuiltIn : a.HasBuiltIn) {w : Workspace}
    (hmemory : w.tree.FitsMemory) {files : List Path} {v : Violation}
    (hv : v ∈ (a.run w files).value.report.violations) {x : Binary64}
    (hx : v.magnitude = some x) : ∃ r < 10 ^ 15, x = tenth r := by
  have hreport : (a.run w files).value.report.violations = (Violation.capped a.effectiveCap
      (a.planned.flatMap (a.contributionAlone w files))).1 :=
    congrArg Prod.fst (a.report_run w files)
  rw [hreport] at hv
  obtain ⟨block, hblock, hv⟩ := List.mem_flatMap.mp ((Violation.capped_sublist _ _).mem hv)
  rw [contributionAlone] at hv
  split at hv
  · cases hv
  · next found hfound =>
    have hrule := hbuiltIn block.2 (mem_rules_of_planned hblock)
    obtain ⟨-, hmeasure⟩ := Registered.of_mem_alone hrule hfound v (List.mem_filter.mp hv).1
    obtain ⟨f, hf, hmeasures⟩ := hmeasure x hx
    obtain ⟨names, hat⟩ := Run.text_of_mem_readable hf
    exact FileContext.tenth_of_measures hmeasures (hmemory names f.content hat)

end Analyzer

end SourceAudit
