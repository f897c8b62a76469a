/-
  SourceAudit/Proofs/Course.lean
  ==============================
  **The course of a run.**

  What happens in a run can be said without anything that rules share: a file is
  unreadable, or a rule is asked and answers.  A rule for files is asked about a file when
  it did not fail on the readable files before it, and its answer is the one it gives from
  what it remembers of these.  A rule for the whole run is asked once, after all files.

    * `account_askFile`: a job that has seen some files takes the step its rule takes;
    * `askFiles_account`: so does a pass over the files, whatever the jobs went through;
    * `Analyzer.account_run`: the calls and the diagnostics of a run are those of its
      course, behind the diagnostics of the plan.
-/
import SourceAudit.Proofs.Isolation

namespace SourceAudit

variable {σ : Type}

/-! ### Steps -/

/-- One thing that happens in a run. -/
inductive Step where
  | unreadable (file : Path) (reason : FileError)
  | asked (call : Call) (answer : RuleAnswer)

def Call.rule : Call → String
  | .file rule _ _ => rule
  | .project rule => rule

namespace Step

def call? : Step → Option Call
  | .unreadable _ _ => none
  | .asked call _ => some call

/-- Unreadable files and errors are told, violations are not. -/
def diagnostic? : Step → Option Diagnostic
  | .unreadable file reason => some (.ofFile file.text s!"could not be read: {reason.message}")
  | .asked call (.error e) => some (.ofRule call.rule e.message)
  | .asked _ (.ok _) => none

end Step

namespace Account

def ofSteps (steps : List Step) : Account :=
  ⟨steps.filterMap Step.diagnostic?, steps.filterMap Step.call?⟩

theorem ofSteps_append (steps more : List Step) :
    ofSteps (steps ++ more) = ofSteps steps ++ ofSteps more := by
  rw [ofSteps, List.filterMap_append, List.filterMap_append]
  rfl

end Account

/-! ### The steps of one rule -/

/-- What a rule for files remembers of some files; nothing when it failed on one of them. -/
def RuleCheck.memoryAfter (ask : FileContext → RuleConfig → σ → Logged (RuleAnswer × σ))
    (config : RuleConfig) : σ → List FileContext → Option σ
  | memory, [] => some memory
  | memory, f :: rest =>
    let (answer, memory) := (ask f config memory).value
    match answer with
    | .error _ => none
    | .ok _ => memoryAfter ask config memory rest

/-- What a rule for files remembers of some files and its first error among them. -/
def RuleCheck.memoryOver (ask : FileContext → RuleConfig → σ → Logged (RuleAnswer × σ))
    (config : RuleConfig) : σ → List FileContext → σ
  | memory, [] => memory
  | memory, f :: rest =>
    let (answer, memory) := (ask f config memory).value
    match answer with
    | .error _ => memory
    | .ok _ => memoryOver ask config memory rest

/-- A rule that gives something for some files remembers what it does in the end. -/
theorem RuleCheck.memoryAfter_eq (ask : FileContext → RuleConfig → σ → Logged (RuleAnswer × σ))
    (config : RuleConfig) (memory : σ) (files : List FileContext) :
    memoryAfter ask config memory files =
      (overFiles ask config memory files).map fun _ => memoryOver ask config memory files := by
  induction files generalizing memory with
  | nil => rfl
  | cons f rest ih =>
    cases hanswer : (ask f config memory).value.1 with
    | error e => simp [memoryAfter, overFiles, hanswer]
    | ok found => simp [memoryAfter, overFiles, memoryOver, hanswer, ih, Function.comp_def]

namespace Registered

/-- The step of a rule at a file, when the files before it are known: it is asked unless it
    is for the whole run or has failed on one of them. -/
def stepOn? (r : Registered σ) (config : RuleConfig) (before : List FileContext)
    (f : FileContext) : Option Step :=
  match r.rule.check with
  | .projectWide _ => none
  | .perFile ask => (RuleCheck.memoryAfter ask config r.memory before).map fun memory =>
      .asked (.file r.rule.name f.path f.content) (ask f config memory).value.1

def stepOnRun? (r : Registered σ) (config : RuleConfig) (run : ProjectContext) : Option Step :=
  match r.rule.check with
  | .perFile _ => none
  | .projectWide ask => some (.asked (.project r.rule.name) (ask run config r.memory).value.1)

end Registered

namespace Run

def contextOf (w : Workspace) (resolver : Resolver) (file : Path) :
    Except FileError FileContext :=
  (w.readText (resolver.base.join file)).map fun content =>
    ⟨resolver.base.join file, content, resolver⟩

/-- The steps at a file, rule by rule; `before` are the readable files before it. -/
def stepsOn (w : Workspace) (resolver : Resolver) (blocks : List (RuleConfig × Registered σ))
    (before : List FileContext) (file : Path) : List Step :=
  match contextOf w resolver file with
  | .error reason => [.unreadable file reason]
  | .ok f => blocks.filterMap fun block => block.2.stepOn? block.1 before f

/-- The steps of a run: file by file if a rule asks for files, then the whole run. -/
def course (w : Workspace) (resolver : Resolver) (files : List Path)
    (blocks : List (RuleConfig × Registered σ)) : List Step :=
  (if blocks.any fun block => block.2.rule.isPerFile then
    files.zipIdx.flatMap fun (file, i) =>
      stepsOn w resolver blocks (readable w resolver (files.take i)) file
  else []) ++
  blocks.filterMap fun block => block.2.stepOnRun? block.1 (wholeRun w resolver files)

end Run

def Analyzer.course (a : Analyzer σ) (w : Workspace) (files : List Path) : List Step :=
  Run.course w a.resolver files a.planned

/-! ### A job between two files -/

namespace Job

theorem record_account (job : Job σ) (answer : RuleAnswer) (memory : σ) (call : Call)
    (hcall : call.rule = job.name) :
    ⟨(job.record answer memory).value.2, [call]⟩ = Account.ofSteps [.asked call answer] := by
  cases answer with
  | ok found => rfl
  | error e =>
    simp only [record, Account.ofSteps, List.filterMap_cons, Step.diagnostic?, hcall]
    rfl

theorem foldl_askFile_name (files : List FileContext) (job : Job σ) :
    (files.foldl (fun job f => (job.askFile f).value.1) job).name = job.name := by
  induction files generalizing job with
  | nil => rfl
  | cons f rest ih =>
    rw [List.foldl_cons, ih]
    cases hcheck : job.rule.check with
    | projectWide ask => simp [askFile, hcheck]
    | perFile ask =>
      by_cases hfailed : job.hasFailed
      · simp [askFile, hcheck, hfailed]
      · cases hanswer : (ask f job.config job.memory).value.1 <;>
          simp [askFile, hcheck, hfailed, hanswer, record]

theorem memory_foldl_askFile (files : List FileContext) (job : Job σ)
    {ask : FileContext → RuleConfig → σ → Logged (RuleAnswer × σ)}
    (hcheck : job.rule.check = .perFile ask) (hgoing : job.hasFailed = false) :
    (files.foldl (fun job f => (job.askFile f).value.1) job).memory =
      RuleCheck.memoryOver ask job.config job.memory files := by
  induction files generalizing job with
  | nil => rfl
  | cons f rest ih =>
    obtain ⟨hrule, hconfig⟩ := job.record_rule_config
      (ask f job.config job.memory).value.1 (ask f job.config job.memory).value.2
    rw [List.foldl_cons, askFile_of_going f job hcheck hgoing]
    cases hanswer : (ask f job.config job.memory).value.1 with
    | error e =>
      have hfailed : ((job.record (.error e)
          (ask f job.config job.memory).value.2).value.1).output = none := rfl
      rw [foldl_askFile_of_fixed _ _ fun g => askFile_of_failed g _ hfailed, record_memory]
      simp [RuleCheck.memoryOver, hanswer]
    | ok found =>
      rw [hanswer] at hrule hconfig
      have hgoing' : (job.record (.ok found)
          (ask f job.config job.memory).value.2).value.1.hasFailed = false := by
        simpa [hasFailed, record] using hgoing
      rw [ih _ (hrule ▸ hcheck) hgoing', hconfig, record_memory]
      simp [RuleCheck.memoryOver, hanswer]

/-- A job for files that has something so far goes through files like its rule alone. -/
theorem foldl_askFile_memory (files : List FileContext) (job : Job σ)
    {ask : FileContext → RuleConfig → σ → Logged (RuleAnswer × σ)}
    (hcheck : job.rule.check = .perFile ask) (hgoing : job.hasFailed = false) :
    (RuleCheck.memoryAfter ask job.config job.memory files = none ∧
      (files.foldl (fun job f => (job.askFile f).value.1) job).hasFailed = true) ∨
    (RuleCheck.memoryAfter ask job.config job.memory files =
        some (files.foldl (fun job f => (job.askFile f).value.1) job).memory ∧
      (files.foldl (fun job f => (job.askFile f).value.1) job).hasFailed = false) := by
  have houtput := output_foldl_askFile files job hcheck
  rw [memory_foldl_askFile files job hcheck hgoing, RuleCheck.memoryAfter_eq, hasFailed, houtput]
  cases hout : job.output with
  | none => simp [hasFailed, hout] at hgoing
  | some sofar =>
    cases RuleCheck.overFiles ask job.config job.memory files with
    | none => exact .inl ⟨rfl, rfl⟩
    | some found => exact .inr ⟨rfl, rfl⟩

theorem account_askFile_of_projectWide (f : FileContext) (job : Job σ)
    {ask : ProjectContext → RuleConfig → σ → Logged (RuleAnswer × σ)}
    (hcheck : job.rule.check = .projectWide ask) : (job.askFile f).value.2 = .empty := by
  simp [askFile, hcheck]

theorem account_askFile_of_failed (f : FileContext) (job : Job σ)
    (hfailed : job.hasFailed = true) : (job.askFile f).value.2 = .empty := by
  cases hcheck : job.rule.check with
  | projectWide ask => exact account_askFile_of_projectWide f job hcheck
  | perFile ask => simp [askFile, hcheck, hfailed]

theorem account_askFile_of_going (f : FileContext) (job : Job σ)
    {ask : FileContext → RuleConfig → σ → Logged (RuleAnswer × σ)}
    (hcheck : job.rule.check = .perFile ask) (hgoing : job.hasFailed = false) :
    (job.askFile f).value.2 = Account.ofSteps
      [.asked (.file job.name f.path f.content) (ask f job.config job.memory).value.1] := by
  rw [← record_account job _ (ask f job.config job.memory).value.2 _ rfl]
  cases hanswer : (ask f job.config job.memory).value.1 <;>
    simp [askFile, hcheck, hgoing, hanswer, record]

theorem account_askProject (run : ProjectContext) (job : Job σ) :
    (job.askProject run).value.2 = Account.ofSteps
      (match job.rule.check with
      | .perFile _ => []
      | .projectWide ask => [.asked (.project job.name) (ask run job.config job.memory).value.1]) := by
  cases hcheck : job.rule.check with
  | perFile ask =>
    simp only [askProject, hcheck]
    rfl
  | projectWide ask =>
    simp only
    rw [← record_account job _ (ask run job.config job.memory).value.2 _ rfl]
    cases hanswer : (ask run job.config job.memory).value.1 <;>
      simp [askProject, hcheck, hanswer, record]

/-- A job that has seen some files takes the step of its rule at the next one. -/
theorem account_askFile (block : RuleConfig × Registered σ) (before : List FileContext)
    (f : FileContext) :
    ((before.foldl (fun job f => (job.askFile f).value.1) (Run.jobOf block)).askFile f).value.2 =
      Account.ofSteps (block.2.stepOn? block.1 before f).toList := by
  obtain ⟨config, r⟩ := block
  obtain ⟨hrule, hconfig⟩ := foldl_askFile_keeps before (Run.jobOf (config, r))
  have hname := foldl_askFile_name before (Run.jobOf (config, r))
  cases hcheck : r.rule.check with
  | projectWide ask =>
    rw [account_askFile_of_projectWide f _ ((congrArg Rule.check hrule).trans hcheck)]
    simp only [Registered.stepOn?, hcheck]
    rfl
  | perFile ask =>
    have hcheck' := (congrArg Rule.check hrule).trans hcheck
    have hmemory := foldl_askFile_memory before (Run.jobOf (config, r)) hcheck rfl
    revert hconfig hname hcheck' hmemory
    generalize before.foldl (fun job f => (job.askFile f).value.1) (Run.jobOf (config, r)) = job
    rintro hconfig hname hcheck' (⟨hmemory, hfailed⟩ | ⟨hmemory, hgoing⟩)
    · have hmemory : RuleCheck.memoryAfter ask config r.memory before = none := hmemory
      rw [account_askFile_of_failed f job hfailed]
      simp only [Registered.stepOn?, hcheck, hmemory]
      rfl
    · have hmemory : RuleCheck.memoryAfter ask config r.memory before = some job.memory := hmemory
      rw [account_askFile_of_going f job hcheck' hgoing, hconfig, hname]
      simp only [Registered.stepOn?, hcheck, hmemory]
      rfl

/-- The files leave a job for the whole run as it was. -/
theorem account_askProject_after (block : RuleConfig × Registered σ) (before : List FileContext)
    (run : ProjectContext) :
    ((before.foldl (fun job f => (job.askFile f).value.1) (Run.jobOf block)).askProject
        run).value.2 =
      Account.ofSteps (block.2.stepOnRun? block.1 run).toList := by
  obtain ⟨config, r⟩ := block
  rw [account_askProject]
  cases hcheck : r.rule.check with
  | perFile ask =>
    have hrule := (foldl_askFile_keeps before (Run.jobOf (config, r))).1
    simp only [(congrArg Rule.check hrule).trans hcheck, Registered.stepOnRun?, hcheck]
    rfl
  | projectWide ask =>
    rw [foldl_askFile_of_fixed before (Run.jobOf (config, r))
      fun f => askFile_of_projectWide f _ hcheck]
    have hjob : (Run.jobOf (config, r)).rule.check = .projectWide ask := hcheck
    simp only [hjob, Registered.stepOnRun?, hcheck]
    rfl

end Job

/-! ### All jobs -/

namespace Run

theorem askAll_account {α : Type} (ask : Job σ → Logged (Job σ × Account)) (items : List α)
    (job : α → Job σ) (step? : α → Option Step)
    (hask : ∀ a ∈ items, (ask (job a)).value.2 = Account.ofSteps (step? a).toList) :
    (askAll ask (items.map job)).value.2 = Account.ofSteps (items.filterMap step?) := by
  induction items with
  | nil => rfl
  | cons a rest ih =>
    have hrest := ih fun b hb => hask b (List.mem_cons_of_mem _ hb)
    have hsteps : (a :: rest).filterMap step? = (step? a).toList ++ rest.filterMap step? := by
      cases hstep : step? a <;> simp [hstep]
    rw [hsteps, Account.ofSteps_append, ← hrest, ← hask a (List.mem_cons_self ..)]
    rfl

theorem readable_append (w : Workspace) (resolver : Resolver) (files more : List Path) :
    readable w resolver (files ++ more) = readable w resolver files ++ readable w resolver more :=
  List.filterMap_append ..

theorem readable_of_error {w : Workspace} {resolver : Resolver} {file : Path} {reason : FileError}
    (hread : w.readText (resolver.base.join file) = .error reason) :
    readable w resolver [file] = [] := by
  simp [readable, hread, Except.toOption]

theorem readable_of_ok {w : Workspace} {resolver : Resolver} {file : Path} {content : String}
    (hread : w.readText (resolver.base.join file) = .ok content) :
    readable w resolver [file] = [⟨resolver.base.join file, content, resolver⟩] := by
  simp [readable, hread, Except.toOption]

theorem contextOf_error {w : Workspace} {resolver : Resolver} {file : Path} {reason : FileError}
    (hread : w.readText (resolver.base.join file) = .error reason) :
    contextOf w resolver file = .error reason := by
  rw [contextOf, hread]
  rfl

theorem contextOf_ok {w : Workspace} {resolver : Resolver} {file : Path} {content : String}
    (hread : w.readText (resolver.base.join file) = .ok content) :
    contextOf w resolver file = .ok ⟨resolver.base.join file, content, resolver⟩ := by
  rw [contextOf, hread]
  rfl

/-- The jobs after some files. -/
def jobsAfter (before : List FileContext) (blocks : List (RuleConfig × Registered σ)) :
    List (Job σ) :=
  blocks.map fun block => before.foldl (fun job f => (job.askFile f).value.1) (jobOf block)

/-- One file takes the jobs a step further and notes the steps at it. -/
theorem askFile_after (w : Workspace) (resolver : Resolver) (done : List Path) (file : Path)
    (blocks : List (RuleConfig × Registered σ)) :
    (askFile w resolver file (jobsAfter (readable w resolver done) blocks)).value.1 =
        jobsAfter (readable w resolver (done ++ [file])) blocks ∧
      (askFile w resolver file (jobsAfter (readable w resolver done) blocks)).value.2 =
        Account.ofSteps (stepsOn w resolver blocks (readable w resolver done) file) := by
  cases hread : w.readText (resolver.base.join file) with
  | error reason =>
    refine ⟨?_, ?_⟩
    · rw [readable_append, readable_of_error hread, List.append_nil]
      simp [askFile, hread]
    · simp only [askFile, hread, stepsOn, contextOf_error hread]
      rfl
  | ok content =>
    refine ⟨?_, ?_⟩
    · rw [readable_append, readable_of_ok hread]
      simp [askFile, hread, askAll_jobs, jobsAfter, List.foldl_append]
    · simp only [askFile, hread, stepsOn, contextOf_ok hread, Logged.value_bind]
      exact askAll_account _ blocks _ _ fun block _ => Job.account_askFile block _ _

/-- A pass over the files notes the steps at each of them. -/
theorem askFiles_account (w : Workspace) (resolver : Resolver) (done rest : List Path)
    (blocks : List (RuleConfig × Registered σ)) :
    (askFiles w resolver rest (jobsAfter (readable w resolver done) blocks)).value.2 =
      Account.ofSteps ((rest.zipIdx done.length).flatMap fun (file, i) =>
        stepsOn w resolver blocks (readable w resolver ((done ++ rest).take i)) file) := by
  induction rest generalizing done with
  | nil => rfl
  | cons file rest ih =>
    obtain ⟨hjobs, haccount⟩ := askFile_after w resolver done file blocks
    have hnext := ih (done ++ [file])
    simp only [List.length_append, List.length_singleton, List.append_assoc,
      List.singleton_append] at hnext
    simp only [askFiles, Logged.value_bind, Logged.value_pure, hjobs, haccount, hnext,
      List.zipIdx_cons, List.flatMap_cons, List.take_left, Account.ofSteps_append]

theorem perFile_account (w : Workspace) (resolver : Resolver) (files : List Path)
    (blocks : List (RuleConfig × Registered σ)) :
    (perFile w resolver files (blocks.map jobOf)).value.2 =
      Account.ofSteps (if blocks.any fun block => block.2.rule.isPerFile then
        files.zipIdx.flatMap fun (file, i) =>
          stepsOn w resolver blocks (readable w resolver (files.take i)) file
      else []) := by
  have hany : (blocks.map jobOf).any (fun job => job.rule.isPerFile) =
      blocks.any fun block => block.2.rule.isPerFile := by
    rw [List.any_map]
    rfl
  rw [perFile, hany]
  split
  · exact askFiles_account w resolver [] files blocks
  · rfl

theorem projectWide_account (w : Workspace) (resolver : Resolver) (files : List Path)
    (blocks : List (RuleConfig × Registered σ)) :
    (projectWide w resolver files (jobsAfter (readable w resolver files) blocks)).value.2 =
      Account.ofSteps
        (blocks.filterMap fun block => block.2.stepOnRun? block.1 (wholeRun w resolver files)) :=
  askAll_account _ blocks _ _ fun block _ => Job.account_askProject_after block _ _

theorem account_course (w : Workspace) (resolver : Resolver) (files : List Path)
    (blocks : List (RuleConfig × Registered σ)) :
    (perFile w resolver files (blocks.map jobOf)).value.2 ++
        (projectWide w resolver files (perFile w resolver files (blocks.map jobOf)).value.1).value.2 =
      Account.ofSteps (course w resolver files blocks) := by
  have hjobs : (perFile w resolver files (blocks.map jobOf)).value.1 =
      jobsAfter (readable w resolver files) blocks := by
    rw [perFile_jobs, List.map_map]
    rfl
  rw [perFile_account, hjobs, projectWide_account, ← Account.ofSteps_append]
  rfl

end Run

/-! ### The run -/

namespace Analyzer

/-- The enabled names that no registered rule has, in the order of the configuration. -/
def unknownNames (a : Analyzer σ) : List String :=
  (a.config.enabledRules.map Prod.fst).filter fun name =>
    !a.rules.any fun r => r.rule.name = name

theorem plan_diagnostics (rules : List (Registered σ)) (blocks : List (String × RuleConfig)) :
    (Run.plan rules blocks).value.2 =
      ((blocks.map Prod.fst).filter fun name => !rules.any fun r => r.rule.name = name).map
        fun name => .ofRule name "unknown rule, skipped" := by
  induction blocks with
  | nil => rfl
  | cons block rest ih =>
    obtain ⟨name, config⟩ := block
    cases hrule : rules.find? (fun r => r.rule.name = name) with
    | none =>
      have hnone : (rules.any fun r => r.rule.name = name) = false := by
        rw [List.any_eq_false]
        intro r hr
        exact List.find?_eq_none.mp hrule r hr
      simp [Run.plan, hrule, hnone, ih]
    | some r =>
      have hsome : (rules.any fun r => r.rule.name = name) = true := by
        rw [List.any_eq_true]
        have hname := List.find?_some hrule
        exact ⟨r, List.mem_of_find?_eq_some hrule, hname⟩
      simp [Run.plan, hrule, hsome, ih]

/-- **The account of a run.**  Its calls are those of its course; its diagnostics are those of
    names without a rule and then those of its course. -/
theorem account_run (a : Analyzer σ) (w : Workspace) (files : List Path) :
    (a.run w files).value.calls = (a.course w files).filterMap Step.call? ∧
      (a.run w files).value.report.diagnostics =
        a.unknownNames.map (fun name => .ofRule name "unknown rule, skipped") ++
          (a.course w files).filterMap Step.diagnostic? := by
  have hcourse := Run.account_course w a.resolver files a.planned
  rw [planned, ← Run.plan_jobs] at hcourse
  have hcalls := congrArg Account.calls hcourse
  have hdiagnostics := congrArg
    ((Run.plan a.rules a.config.enabledRules).value.2 ++ Account.diagnostics ·) hcourse
  rw [unknownNames, ← plan_diagnostics]
  refine ⟨Eq.trans ?_ hcalls, Eq.trans ?_ hdiagnostics⟩
  · simp only [run, Logged.value_bind]
    split <;> rfl
  · simp only [run, Logged.value_bind]
    split <;> rfl

end Analyzer

end SourceAudit
