/-
  SourceAudit/Proofs/Diagnostics.lean
  ===================================
  **What a run says about its rules.**

  The diagnostics of a run are told in the order in which things happen: first the enabled
  names that no rule has, then the steps of the run, of which unreadable files and errors
  are told.  For one name that leaves a choice of two (`Analyzer.told_or_kept`): it has one
  diagnostic and gives no violation, or none and gives everything its rule found alone, down
  to its level.
-/
import SourceAudit.Proofs.Calls

namespace SourceAudit

variable {σ : Type}

/-! ### The diagnostics of one name -/

theorem Step.filter_diagnostics (steps : List Step) (name : String) :
    (steps.filterMap Step.diagnostic?).filter (fun d => d.rule = some name) =
      (steps.filter fun s => s.rule? = some name).filterMap Step.diagnostic? := by
  rw [List.filter_filterMap, List.filterMap_filter]
  congr 1
  funext s
  cases hd : s.diagnostic? with
  | none => simp
  | some d => simp only [Option.filter_some, diagnostic?_rule hd, decide_eq_true_eq]

namespace Analyzer

variable {a : Analyzer σ} {w : Workspace} {files : List Path}

/-- What an enabled block contributes; nothing without a rule of its name. -/
def contributionOf (a : Analyzer σ) (w : Workspace) (files : List Path)
    (block : String × RuleConfig) : List Violation :=
  match a.rules.find? fun r => r.rule.name = block.1 with
  | none => []
  | some r => a.contributionAlone w files (block.2, r)

theorem flatMap_contributionOf (a : Analyzer σ) (w : Workspace) (files : List Path) :
    a.config.enabledRules.flatMap (a.contributionOf w files) =
      a.planned.flatMap (a.contributionAlone w files) := by
  rw [planned_eq, Run.planned]
  induction a.config.enabledRules with
  | nil => rfl
  | cons block rest ih =>
    rw [List.flatMap_cons, ih, contributionOf]
    cases hrule : a.rules.find? (fun r => r.rule.name = block.1) <;> simp [hrule]

/-- The diagnostics of a run that belong to a name. -/
def diagnosticsOf (a : Analyzer σ) (w : Workspace) (files : List Path) (name : String) :
    List Diagnostic :=
  (a.run w files).value.report.diagnostics.filter fun d => d.rule = some name

theorem mem_unknownNames {name : String} :
    name ∈ a.unknownNames ↔ name ∈ a.config.enabledRules.map Prod.fst ∧
      a.rules.find? (fun r => r.rule.name = name) = none := by
  rw [unknownNames, List.mem_filter, List.find?_eq_none, Bool.not_eq_true', List.any_eq_false]

theorem unknownNames_nodup (hnodup : (a.config.rules.map Prod.fst).Nodup) :
    a.unknownNames.Nodup :=
  ((List.filter_sublist.map Prod.fst).nodup hnodup).filter _

theorem filter_unknown (hnodup : (a.config.rules.map Prod.fst).Nodup) (name : String) :
    (a.unknownNames.map fun name => Diagnostic.ofRule name "unknown rule, skipped").filter
        (fun d => d.rule = some name) =
      if name ∈ a.unknownNames then [.ofRule name "unknown rule, skipped"] else [] := by
  have hsame : a.unknownNames.filter ((fun d => decide (d.rule = some name)) ∘
      fun name => Diagnostic.ofRule name "unknown rule, skipped") =
      a.unknownNames.filter fun other => other = name := by
    congr 1
    funext other
    simp [Diagnostic.ofRule]
  rw [List.filter_map, hsame, List.filter_eq, (unknownNames_nodup hnodup).count]
  split <;> rfl

theorem diagnosticsOf_eq (hnodup : (a.config.rules.map Prod.fst).Nodup) (w : Workspace)
    (files : List Path) (name : String) :
    a.diagnosticsOf w files name =
      (if name ∈ a.unknownNames then [.ofRule name "unknown rule, skipped"] else []) ++
        ((a.course w files).filter fun s => s.rule? = some name).filterMap Step.diagnostic? := by
  rw [diagnosticsOf, (a.account_run w files).2, List.filter_append, filter_unknown hnodup,
    Step.filter_diagnostics]

/-- A name that no rule of the plan has takes no step. -/
theorem course_filter_of_unplanned {name : String}
    (hnone : ∀ block ∈ a.planned, block.2.rule.name ≠ name) (w : Workspace) (files : List Path) :
    (a.course w files).filter (fun s => s.rule? = some name) = [] := by
  rw [List.filter_eq_nil_iff]
  intro s hs hname
  rw [decide_eq_true_eq] at hname
  obtain ⟨block, hblock, hsame⟩ := Run.block_of_mem_course hs hname
  exact hnone block hblock hsame

/-- An enabled name without a rule is told as unknown, and that is all of it. -/
theorem told_of_unknown (hnodup : (a.config.rules.map Prod.fst).Nodup) {name : String}
    (hunknown : name ∈ a.unknownNames) (w : Workspace) (files : List Path) :
    a.diagnosticsOf w files name = [.ofRule name "unknown rule, skipped"] := by
  have hunplanned : ∀ block ∈ a.planned, block.2.rule.name ≠ name := by
    rintro block hblock rfl
    rw [mem_unknownNames, (enabled_of_planned hblock).2.2] at hunknown
    cases hunknown.2
  rw [diagnosticsOf_eq hnodup, if_pos hunknown, course_filter_of_unplanned hunplanned]
  rfl

/-- What is told of a planned name is what its rule says on its own. -/
theorem diagnosticsOf_planned (hnodup : (a.config.rules.map Prod.fst).Nodup)
    {block : RuleConfig × Registered σ} (hblock : block ∈ a.planned) (w : Workspace)
    (files : List Path) :
    a.diagnosticsOf w files block.2.rule.name =
      (block.2.ownSteps block.1 (Run.readable w a.resolver files)
        (Run.wholeRun w a.resolver files)).filterMap Step.diagnostic? := by
  have hknown : block.2.rule.name ∉ a.unknownNames := by
    rw [mem_unknownNames, (enabled_of_planned hblock).2.2]
    rintro ⟨-, hnone⟩
    cases hnone
  rw [diagnosticsOf_eq hnodup, if_neg hknown, course,
    Run.course_filter w a.resolver (planned_names_nodup hnodup) hblock]
  rfl

/-- A name that is not enabled is not told of. -/
theorem diagnosticsOf_disabled (hnodup : (a.config.rules.map Prod.fst).Nodup) {name : String}
    (hdisabled : name ∉ a.config.enabledRules.map Prod.fst) (w : Workspace) (files : List Path) :
    a.diagnosticsOf w files name = [] := by
  have hunplanned : ∀ block ∈ a.planned, block.2.rule.name ≠ name := by
    rintro block hblock rfl
    obtain ⟨hconfig, henabled, -⟩ := enabled_of_planned hblock
    exact hdisabled (List.mem_map.mpr ⟨_, List.mem_filter.mpr ⟨hconfig, henabled⟩, rfl⟩)
  have hknown : name ∉ a.unknownNames := fun hunknown =>
    hdisabled (mem_unknownNames.mp hunknown).1
  rw [diagnosticsOf_eq hnodup, if_neg hknown, course_filter_of_unplanned hunplanned]
  rfl

/-- One diagnostic and no violation, or no diagnostic and all of the output. -/
theorem diagnosticsOf_enabled (hnodup : (a.config.rules.map Prod.fst).Nodup)
    {block : String × RuleConfig} (hblock : block ∈ a.config.enabledRules) (w : Workspace)
    (files : List Path) :
    ((a.diagnosticsOf w files block.1).length = 1 ∧ a.contributionOf w files block = []) ∨
    (a.diagnosticsOf w files block.1 = [] ∧ ∃ r found,
      a.rules.find? (fun r => r.rule.name = block.1) = some r ∧
      a.outputAlone w files block.2 r = some found ∧
      a.contributionOf w files block =
        found.filter fun v => (a.levelOf block.2).minimum.rank ≤ v.severity.rank) := by
  obtain ⟨name, config⟩ := block
  cases hfirst : a.rules.find? fun r => r.rule.name = name with
  | none =>
    have hunknown : name ∈ a.unknownNames :=
      mem_unknownNames.mpr ⟨List.mem_map_of_mem (f := Prod.fst) hblock, hfirst⟩
    exact .inl ⟨by rw [told_of_unknown hnodup hunknown]; rfl, by simp [contributionOf, hfirst]⟩
  | some r =>
    have hname : r.rule.name = name := by simpa using List.find?_some hfirst
    have hplanned : (config, r) ∈ a.planned := by
      refine List.mem_filterMap.mpr ⟨(name, config), hblock, ?_⟩
      simp [hfirst]
    have htold := diagnosticsOf_planned hnodup hplanned w files
    rw [hname] at htold
    rw [htold]
    rcases r.ownSteps_diagnostics config (Run.readable w a.resolver files)
      (Run.wholeRun w a.resolver files) with ⟨halone, e, hown⟩ | ⟨⟨found, halone⟩, hown⟩
    · refine .inl ⟨by rw [hown]; rfl, ?_⟩
      simp [contributionOf, hfirst, contributionAlone, outputAlone, halone]
    · refine .inr ⟨hown, r, found, rfl, halone, ?_⟩
      simp [contributionOf, hfirst, contributionAlone, outputAlone, halone]

/-- **What a run says and what it keeps.**  Its diagnostics are the names without a rule and
    then what is told of its steps.  Every enabled name has one of them and gives nothing, or
    has none and gives all its rule finds down to its level. -/
theorem told_or_kept (a : Analyzer σ) (w : Workspace) (files : List Path) :
    (a.run w files).value.report.diagnostics =
        a.unknownNames.map (fun name => .ofRule name "unknown rule, skipped") ++
          (a.course w files).filterMap Step.diagnostic? ∧
      ((a.run w files).value.report.violations, (a.run w files).value.report.evicted) =
        Violation.capped a.effectiveCap
          (a.config.enabledRules.flatMap (a.contributionOf w files)) ∧
      ((a.config.rules.map Prod.fst).Nodup →
        (∀ name, (a.diagnosticsOf w files name).length ≤ 1) ∧
        ∀ block ∈ a.config.enabledRules,
          ((a.diagnosticsOf w files block.1).length = 1 ∧
            a.contributionOf w files block = []) ∨
          (a.diagnosticsOf w files block.1 = [] ∧ ∃ r found,
            a.rules.find? (fun r => r.rule.name = block.1) = some r ∧
            a.outputAlone w files block.2 r = some found ∧
            a.contributionOf w files block =
              found.filter fun v => (a.levelOf block.2).minimum.rank ≤ v.severity.rank)) := by
  refine ⟨(a.account_run w files).2, ?_, fun hnodup => ⟨?_, ?_⟩⟩
  · rw [flatMap_contributionOf]
    exact a.report_run w files
  · intro name
    by_cases henabled : name ∈ a.config.enabledRules.map Prod.fst
    · obtain ⟨block, hblock, rfl⟩ := List.mem_map.mp henabled
      rcases diagnosticsOf_enabled hnodup hblock w files with ⟨hone, -⟩ | ⟨hnone, -⟩
      · exact Nat.le_of_eq hone
      · rw [hnone]
        exact Nat.zero_le 1
    · rw [diagnosticsOf_disabled hnodup henabled]
      exact Nat.zero_le 1
  · intro block hblock
    exact diagnosticsOf_enabled hnodup hblock w files

/-- The rule that lost count is told of once and its first violation is gone; the rule that
    goes on has all of its own. -/
theorem told_or_kept_scripted :
    (scriptedAnalyzer.config.rules.map Prod.fst).Nodup ∧
      (scriptedAnalyzer.run scriptedWorkspace scriptedFiles).value.report.diagnostics =
        [.ofRule "missing" "unknown rule, skipped",
          .ofFile "raw.txt" "could not be read: stream did not contain valid UTF-8",
          .ofRule "count" "lost count", .ofRule "whole" "rule panicked: unknown panic"] ∧
      scriptedAnalyzer.contributionOf scriptedWorkspace scriptedFiles ("count", .default) = [] ∧
      (scriptedAnalyzer.run scriptedWorkspace scriptedFiles).value.report.violations =
        [⟨"a.txt", "size", .warning, "large", none⟩, ⟨"b.txt", "size", .warning, "large", none⟩,
          ⟨"a.txt", "size", .warning, "large", none⟩] := by
  have hnodup : (scriptedAnalyzer.config.rules.map Prod.fst).Nodup := by decide
  obtain ⟨htold, hkept, hnames⟩ :=
    told_or_kept scriptedAnalyzer scriptedWorkspace scriptedFiles
  have hdiagnostics :
      (scriptedAnalyzer.run scriptedWorkspace scriptedFiles).value.report.diagnostics =
      [.ofRule "missing" "unknown rule, skipped",
        .ofFile "raw.txt" "could not be read: stream did not contain valid UTF-8",
        .ofRule "count" "lost count", .ofRule "whole" "rule panicked: unknown panic"] := by
    rw [htold]
    decide +kernel
  refine ⟨hnodup, hdiagnostics, ?_, ?_⟩
  · have henabled : ("count", .default) ∈ scriptedAnalyzer.config.enabledRules := by
      simp [Config.enabledRules, scriptedAnalyzer, RuleConfig.default]
    rcases (hnames hnodup).2 _ henabled with ⟨-, hnothing⟩ | ⟨hsilent, -⟩
    · exact hnothing
    · rw [diagnosticsOf, hdiagnostics] at hsilent
      cases hsilent
  · refine (congrArg Prod.fst hkept).trans ?_
    decide +kernel

end Analyzer

end SourceAudit
