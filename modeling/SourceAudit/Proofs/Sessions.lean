/-
  SourceAudit/Proofs/Sessions.lean
  ================================
  **Run after run with one analyzer.**

  An analyzer hands what its rules remember from run to run, and the file tree may be
  another one at every run.  The only rule of the library that remembers anything is the
  one for metrics: the pairs of thresholds it has told to be backwards.  What it remembers
  decides about events and about nothing else.

    * a rule is `Forgetful` when its answers do not depend on what it remembers; all rules
      of the library are                              — `Rule.forgetful_of_mem_builtIn`;
    * such rules contribute the same and take the same steps from any memory
                                                      — `Analyzer.report_withMemory`;
    * a run changes memories only                     — `Analyzer.withMemory_after`;
    * so every report of a session is that of a new analyzer
                                                      — `Analyzer.reports_eq_fresh`.
-/
import SourceAudit.Proofs.Course
import SourceAudit.Proofs.Gitignore.Run

namespace SourceAudit

variable {σ : Type}

/-! ### Sessions -/

/-- What an analyzer may be asked for. -/
inductive Request where
  | files (paths : List Path)
  | language (l : Language)

attribute [ext] Report

/-- The rule when it remembers something else. -/
def Registered.withMemory (r : Registered σ) (memory : σ) : Registered σ :=
  { r with memory := memory }

namespace Analyzer

/-- What one request gives. -/
def answer (a : Analyzer σ) (w : Workspace) : Request → Except DiscoveryError (Outcome σ)
  | .files paths => .ok (a.run w paths).value
  | .language l => (a.runLanguage w l).value

/-- The analyzer after a request; where no file was found, no rule was asked. -/
def next (a : Analyzer σ) (w : Workspace) (request : Request) : Analyzer σ :=
  match a.answer w request with
  | .ok outcome => a.after outcome
  | .error _ => a

/-- The reports of a session, in which every request meets a workspace of its own. -/
def reports (a : Analyzer σ) : List (Workspace × Request) → List (Except DiscoveryError Report)
  | [] => []
  | (w, request) :: rest =>
    (a.answer w request).map Outcome.report :: (a.next w request).reports rest

/-- The analyzer when all its rules remember the same. -/
def withMemory (a : Analyzer σ) (memory : σ) : Analyzer σ :=
  { a with rules := a.rules.map fun r => r.withMemory memory }

/-- A new analyzer with the same settings: nothing has been told yet. -/
def fresh (a : Analyzer Metric.Told) : Analyzer Metric.Told := a.withMemory []

end Analyzer

/-! ### Rules whose answers do not depend on what they remember -/

def RuleCheck.Forgetful : RuleCheck σ → Prop
  | .perFile ask => ∀ f config memory memory',
    (ask f config memory).value.1 = (ask f config memory').value.1
  | .projectWide ask => ∀ run config memory memory',
    (ask run config memory).value.1 = (ask run config memory').value.1

theorem Rule.forgetful_of_mem_builtIn {rule : Rule Metric.Told} (hrule : rule ∈ Rule.builtIn) :
    rule.check.Forgetful := by
  simp only [Rule.builtIn, List.mem_cons, List.not_mem_nil, or_false] at hrule
  rcases hrule with rfl | rfl | rfl | rfl | rfl
  · intro f config memory memory'
    rfl
  · intro f config memory memory'
    exact congrArg Except.ok (Metric.checkAll_forgetful f config _ memory memory' Metric.all)
  · intro run config memory memory'
    rfl
  · intro run config memory memory'
    rfl
  · intro run config memory memory'
    rfl

/-! ### One rule from another memory -/

theorem RuleCheck.overFiles_forgetful {ask : FileContext → RuleConfig → σ → Logged (RuleAnswer × σ)}
    (hask : (RuleCheck.perFile ask).Forgetful) (config : RuleConfig) (memory memory' : σ)
    (files : List FileContext) :
    overFiles ask config memory files = overFiles ask config memory' files := by
  induction files generalizing memory memory' with
  | nil => rfl
  | cons f rest ih =>
    have hanswer := hask f config memory memory'
    simp only [overFiles, hanswer]
    cases (ask f config memory').value.1 with
    | error e => rfl
    | ok found => simp only [ih (ask f config memory).value.2 (ask f config memory').value.2]

namespace Registered

variable {r : Registered σ}

theorem alone_withMemory (hr : r.rule.check.Forgetful) (memory : σ) (config : RuleConfig)
    (files : List FileContext) (run : ProjectContext) :
    (r.withMemory memory).alone config files run = r.alone config files run := by
  unfold alone withMemory
  cases hcheck : r.rule.check with
  | perFile ask =>
    rw [hcheck] at hr
    exact RuleCheck.overFiles_forgetful hr config memory r.memory files
  | projectWide ask =>
    rw [hcheck] at hr
    exact congrArg Except.toOption (hr run config memory r.memory)

/-- The rule fails on the files before as it did, and so it is asked when it was. -/
theorem stepOn?_withMemory (hr : r.rule.check.Forgetful) (memory : σ) (config : RuleConfig)
    (before : List FileContext) (f : FileContext) :
    (r.withMemory memory).stepOn? config before f = r.stepOn? config before f := by
  unfold stepOn? withMemory
  cases hcheck : r.rule.check with
  | projectWide ask => rfl
  | perFile ask =>
    rw [hcheck] at hr
    dsimp only
    rw [RuleCheck.memoryAfter_eq, RuleCheck.memoryAfter_eq,
      RuleCheck.overFiles_forgetful hr config memory r.memory, Option.map_map, Option.map_map]
    congr 1
    funext found
    exact congrArg (Step.asked _) (hr f config _ _)

theorem stepOnRun?_withMemory (hr : r.rule.check.Forgetful) (memory : σ) (config : RuleConfig)
    (run : ProjectContext) :
    (r.withMemory memory).stepOnRun? config run = r.stepOnRun? config run := by
  unfold stepOnRun? withMemory
  cases hcheck : r.rule.check with
  | perFile ask => rfl
  | projectWide ask =>
    rw [hcheck] at hr
    exact congrArg (fun answer => some (Step.asked _ answer)) (hr run config memory r.memory)

end Registered

/-! ### All rules from another memory -/

namespace Analyzer

variable {a : Analyzer σ}

theorem planned_withMemory (memory : σ) :
    (a.withMemory memory).planned =
      a.planned.map fun block => (block.1, block.2.withMemory memory) := by
  unfold planned Run.planned withMemory
  rw [List.map_filterMap]
  congr 1
  funext ⟨name, config⟩
  dsimp only
  rw [List.find?_map, Option.map_map, Option.map_map]
  rfl

theorem unknownNames_withMemory (memory : σ) :
    (a.withMemory memory).unknownNames = a.unknownNames := by
  unfold unknownNames withMemory
  congr 1
  funext name
  rw [List.any_map]
  rfl

theorem answer_language_of_ok {w : Workspace} {l : Language} {files : List Path}
    (hfiles : (a.discover w l).value = .ok files) :
    a.answer w (.language l) = .ok (a.run w files).value := by
  change (a.runLanguage w l).value = _
  unfold runLanguage
  rw [Logged.value_bind, hfiles]
  rfl

theorem answer_language_of_error {w : Workspace} {l : Language} {e : DiscoveryError}
    (hfiles : (a.discover w l).value = .error e) : a.answer w (.language l) = .error e := by
  change (a.runLanguage w l).value = _
  unfold runLanguage
  rw [Logged.value_bind, hfiles]
  rfl

section

variable (ha : ∀ r ∈ a.rules, r.rule.check.Forgetful)

include ha

theorem contributions_withMemory (memory : σ) (w : Workspace) (files : List Path) :
    (a.withMemory memory).planned.flatMap ((a.withMemory memory).contributionAlone w files) =
      a.planned.flatMap (a.contributionAlone w files) := by
  rw [planned_withMemory, List.flatMap_map]
  apply List.flatMap_congr
  intro block hblock
  have houtput : (a.withMemory memory).outputAlone w files block.1 (block.2.withMemory memory) =
      a.outputAlone w files block.1 block.2 :=
    Registered.alone_withMemory (ha _ (mem_rules_of_planned hblock)) memory ..
  unfold contributionAlone
  rw [houtput]
  rfl

theorem course_withMemory (memory : σ) (w : Workspace) (files : List Path) :
    (a.withMemory memory).course w files = a.course w files := by
  have hany : ((a.withMemory memory).planned.any fun block => block.2.rule.isPerFile) =
      a.planned.any fun block => block.2.rule.isPerFile := by
    rw [planned_withMemory, List.any_map]
    rfl
  have hstepsOn (before : List FileContext) (file : Path) :
      Run.stepsOn w a.resolver (a.withMemory memory).planned before file =
        Run.stepsOn w a.resolver a.planned before file := by
    unfold Run.stepsOn
    split
    · rfl
    · rw [planned_withMemory, List.filterMap_map]
      apply List.filterMap_congr
      intro block hblock
      exact Registered.stepOn?_withMemory (ha _ (mem_rules_of_planned hblock)) ..
  have hwhole : (a.withMemory memory).planned.filterMap
        (fun block => block.2.stepOnRun? block.1 (Run.wholeRun w a.resolver files)) =
      a.planned.filterMap
        fun block => block.2.stepOnRun? block.1 (Run.wholeRun w a.resolver files) := by
    rw [planned_withMemory, List.filterMap_map]
    apply List.filterMap_congr
    intro block hblock
    exact Registered.stepOnRun?_withMemory (ha _ (mem_rules_of_planned hblock)) ..
  change Run.course w a.resolver files (a.withMemory memory).planned = _
  unfold course Run.course
  rw [hany, hwhole]
  simp only [hstepsOn]

/-- The report of a run is the same from any memory. -/
theorem report_withMemory (memory : σ) (w : Workspace) (files : List Path) :
    ((a.withMemory memory).run w files).value.report = (a.run w files).value.report := by
  have hshown := (a.withMemory memory).report_run w files
  rw [contributions_withMemory ha] at hshown
  obtain ⟨hviolations, hevicted⟩ := Prod.mk.inj (hshown.trans (a.report_run w files).symm)
  have hdiagnostics := ((a.withMemory memory).account_run w files).2
  rw [unknownNames_withMemory, course_withMemory ha, ← (a.account_run w files).2]
    at hdiagnostics
  have hchecked (b : Analyzer σ) : (b.run w files).value.report.filesChecked = files.length := by
    simp only [run, Logged.value_bind]
    split <;> rfl
  exact Report.ext hviolations hdiagnostics ((hchecked _).trans (hchecked _).symm) hevicted

theorem answer_withMemory (memory : σ) (w : Workspace) (request : Request) :
    ((a.withMemory memory).answer w request).map Outcome.report =
      (a.answer w request).map Outcome.report := by
  cases request with
  | files paths => exact congrArg Except.ok (report_withMemory ha memory w paths)
  | language l =>
    have hfound : (a.withMemory memory).discover w l = a.discover w l := rfl
    cases hfiles : (a.discover w l).value with
    | error e =>
      rw [answer_language_of_error hfiles, answer_language_of_error (hfound ▸ hfiles)]
    | ok paths =>
      rw [answer_language_of_ok hfiles, answer_language_of_ok (hfound ▸ hfiles)]
      exact congrArg Except.ok (report_withMemory ha memory w paths)

end

end Analyzer

/-! ### What a run leaves behind -/

namespace Run

theorem remember_withMemory (name : String) (told memory : σ) (rules : List (Registered σ)) :
    (remember name told rules).map (fun r => r.withMemory memory) =
      rules.map fun r => r.withMemory memory := by
  induction rules with
  | nil => rfl
  | cons r rest ih =>
    unfold remember
    split
    · rfl
    · rw [List.map_cons, List.map_cons, ih]

theorem rememberAll_withMemory (memory : σ) (jobs : List (Job σ)) (rules : List (Registered σ)) :
    (rememberAll jobs rules).map (fun r => r.withMemory memory) =
      rules.map fun r => r.withMemory memory := by
  induction jobs generalizing rules with
  | nil => rfl
  | cons job rest ih =>
    have hrest := ih (remember job.name job.memory rules)
    rw [remember_withMemory] at hrest
    exact hrest

end Run

namespace Analyzer

/-- A run changes memories and nothing else. -/
theorem withMemory_after (a : Analyzer σ) (memory : σ) (w : Workspace) (files : List Path) :
    (a.after (a.run w files).value).withMemory memory = a.withMemory memory := by
  have hrun : ∃ jobs, (a.run w files).value.rules = Run.rememberAll jobs a.rules := by
    simp only [run, Logged.value_bind]
    split
    · exact ⟨_, rfl⟩
    · exact ⟨_, rfl⟩
  obtain ⟨jobs, hrules⟩ := hrun
  unfold after withMemory
  rw [hrules]
  dsimp only
  rw [Run.rememberAll_withMemory]

theorem withMemory_next (a : Analyzer σ) (memory : σ) (w : Workspace) (request : Request) :
    (a.next w request).withMemory memory = a.withMemory memory := by
  cases request with
  | files paths => exact a.withMemory_after memory w paths
  | language l =>
    unfold next
    cases hfiles : (a.discover w l).value with
    | error e => rw [answer_language_of_error hfiles]
    | ok paths =>
      rw [answer_language_of_ok hfiles]
      exact a.withMemory_after memory w paths

/-! ### Sessions -/

theorem forgetful_withMemory {a : Analyzer σ} (ha : ∀ r ∈ a.rules, r.rule.check.Forgetful)
    (memory : σ) : ∀ r ∈ (a.withMemory memory).rules, r.rule.check.Forgetful := by
  intro r hr
  obtain ⟨s, hs, rfl⟩ := List.mem_map.mp hr
  exact ha s hs

/-- Rules of which a request has changed the memories are as forgetful as before. -/
theorem forgetful_next {a : Analyzer σ} (ha : ∀ r ∈ a.rules, r.rule.check.Forgetful)
    (w : Workspace) (request : Request) :
    ∀ r ∈ (a.next w request).rules, r.rule.check.Forgetful := by
  intro r hr
  have hsame := congrArg Analyzer.rules (a.withMemory_next r.memory w request)
  have hmem : r.withMemory r.memory ∈ ((a.next w request).withMemory r.memory).rules :=
    List.mem_map_of_mem hr
  rw [hsame] at hmem
  exact forgetful_withMemory ha r.memory r hmem

/-- With rules of which no answer depends on a memory, every report of a session is the one
    that the settings give on the workspace of its request, whatever is remembered. -/
theorem reports_withMemory {a : Analyzer σ} (ha : ∀ r ∈ a.rules, r.rule.check.Forgetful)
    (memory : σ) (session : List (Workspace × Request)) :
    a.reports session = session.map fun request =>
      ((a.withMemory memory).answer request.1 request.2).map Outcome.report := by
  induction session generalizing a with
  | nil => rfl
  | cons first rest ih =>
    obtain ⟨w, request⟩ := first
    have hrest := ih (forgetful_next ha w request)
    rw [withMemory_next] at hrest
    rw [reports, hrest, List.map_cons, answer_withMemory ha memory w request]

/-- **Sessions.**  Whatever was asked before and however the workspace changed in between,
    each report of a session is that of a new analyzer with the same settings. -/
theorem reports_eq_fresh {a : Analyzer Metric.Told} (hbuiltIn : a.HasBuiltIn)
    (session : List (Workspace × Request)) :
    a.reports session = session.map fun request =>
      (a.fresh.answer request.1 request.2).map Outcome.report :=
  reports_withMemory (fun r hr => Rule.forgetful_of_mem_builtIn (hbuiltIn r hr)) [] session

end Analyzer

/-! ### A session with backwards thresholds -/

def sharedWorkspace (text : String) : Workspace where
  tree := .directory [("w", .directory [("a.dart", .file (.text text))])]
  workingNames := []
  home := none
  settingsDirectory := none

def emptyWorkspace : Workspace := { sharedWorkspace "" with tree := .empty }

/-- The error threshold for the share of comments lies above the one for warnings. -/
def backwardsAnalyzer : Analyzer Metric.Told where
  root := ⟨"/w"⟩
  rules := Rule.builtIn.map fun rule => ⟨rule, []⟩
  config := { Config.default with rules := [(Metric.name, { RuleConfig.default with metrics :=
    [(Metric.commentShare.id, ⟨some (Binary64.ofNat 10), some (Binary64.ofNat 20)⟩)] })] }
  level := none
  cap := none

/-- Two runs over a file that loses its comment in between, and one after it has gone. -/
def backwardsSession : List (Workspace × Request) :=
  [(sharedWorkspace "// a\nf();\n", .files [⟨"a.dart"⟩]),
    (sharedWorkspace "f();\n", .files [⟨"a.dart"⟩]), (emptyWorkspace, .language .dart)]

namespace Analyzer

/-- The first run remembers that it has told about the thresholds, and the second one still
    reports what a new analyzer does. -/
theorem reports_eq_fresh_backwards : backwardsAnalyzer.HasBuiltIn ∧
    ((backwardsAnalyzer.next (sharedWorkspace "// a\nf();\n") (.files [⟨"a.dart"⟩])).rules.map
      fun r => r.memory.length) = [0, 1, 0, 0, 0] ∧
    backwardsAnalyzer.reports backwardsSession = backwardsSession.map (fun request =>
      (backwardsAnalyzer.fresh.answer request.1 request.2).map Outcome.report) ∧
    ((backwardsAnalyzer.reports backwardsSession).map fun report =>
      report.toOption.map fun r => r.violations.map Violation.severity) =
        [some [], some [.error], none] := by
  have hbuiltIn : backwardsAnalyzer.HasBuiltIn := by
    intro r hr
    obtain ⟨rule, hrule, rfl⟩ := List.mem_map.mp hr
    exact hrule
  refine ⟨hbuiltIn, by decide +kernel, ?_, by decide +kernel⟩
  exact reports_eq_fresh hbuiltIn backwardsSession

end Analyzer

end SourceAudit
