/-
  SourceAudit/Proofs/Isolation.lean
  =================================
  **Rules do not touch each other.**

  A run asks all rules about one file before it goes on to the next, skips those
  that failed, and filters and caps at the end.  Here a rule is also asked *alone*:
  about every readable file in order until its first error, or once about the whole
  run.  The violations of a run are those of the rules asked alone, one rule after
  the other:

    * asking all jobs is asking each of them       — `askAll_jobs`;
    * so a pass over the files can be cut by jobs  — `askFiles_jobs`;
    * the output of one job over all files is that of its rule alone
                                                   — `output_foldl_askFile`;
    * a run gives the capped list of what the rules contribute alone
                                                   — `run_eq_oneByOne`.

  A rule that fails contributes nothing, and since no contribution looks at another
  one, taking its block out of the configuration changes nothing.
-/
import SourceAudit.Analyzer

namespace SourceAudit

variable {σ : Type}

/-! ### One rule alone -/

namespace Run

/-- The blocks that name a rule, in order, each with the first rule of that name. -/
def planned (rules : List (Registered σ)) (blocks : List (String × RuleConfig)) :
    List (RuleConfig × Registered σ) :=
  blocks.filterMap fun (name, config) =>
    (rules.find? fun r => r.rule.name = name).map fun r => (config, r)

/-- The files that can be read, as rules are asked about them. -/
def readable (w : Workspace) (resolver : Resolver) (files : List Path) : List FileContext :=
  files.filterMap fun file =>
    let path := resolver.base.join file
    (w.readText path).toOption.map fun content => ⟨path, content, resolver⟩

/-- The question about the whole run. -/
def wholeRun (w : Workspace) (resolver : Resolver) (files : List Path) : ProjectContext :=
  ⟨resolver.base, files.map resolver.base.join, resolver, w⟩

end Run

/-- What a rule for files gives on its own: the violations of all files, or nothing
    once an answer is an error. -/
def RuleCheck.overFiles (ask : FileContext → RuleConfig → σ → Logged (RuleAnswer × σ))
    (config : RuleConfig) : σ → List FileContext → Option (List Violation)
  | _, [] => some []
  | memory, f :: rest =>
    let (answer, memory) := (ask f config memory).value
    match answer with
    | .error _ => none
    | .ok found => (overFiles ask config memory rest).map (found ++ ·)

/-- What a rule gives on its own. -/
def Registered.alone (r : Registered σ) (config : RuleConfig) (files : List FileContext)
    (run : ProjectContext) : Option (List Violation) :=
  match r.rule.check with
  | .perFile ask => RuleCheck.overFiles ask config r.memory files
  | .projectWide ask => (ask run config r.memory).value.1.toOption

namespace Analyzer

/-- The rules of a run: those with a block that is enabled, in the order of the blocks. -/
def planned (a : Analyzer σ) : List (RuleConfig × Registered σ) :=
  Run.planned a.rules (a.config.rules.filter fun block => block.2.enabled)

theorem planned_eq (a : Analyzer σ) : a.planned = Run.planned a.rules a.config.enabledRules := rfl

/-- The level of a rule: that of the command line, its own, the global one, or all. -/
def levelOf (a : Analyzer σ) (config : RuleConfig) : Level :=
  ((a.level.or config.level).or a.config.level).getD .all

def outputAlone (a : Analyzer σ) (w : Workspace) (files : List Path) (config : RuleConfig)
    (r : Registered σ) : Option (List Violation) :=
  r.alone config (Run.readable w a.resolver files) (Run.wholeRun w a.resolver files)

def contributionAlone (a : Analyzer σ) (w : Workspace) (files : List Path)
    (block : RuleConfig × Registered σ) : List Violation :=
  match a.outputAlone w files block.1 block.2 with
  | none => []
  | some found =>
    found.filter fun v => (a.levelOf block.1).minimum.rank ≤ v.severity.rank

/-- The violations of a run that asks the rules one by one, and how many the cap drops. -/
def oneByOne (a : Analyzer σ) (w : Workspace) (files : List Path) : List Violation × Nat :=
  Violation.capped (a.cap.or a.config.maxErrors)
    (a.planned.flatMap (a.contributionAlone w files))

/-- The analyzer without the blocks of one name. -/
def without (a : Analyzer σ) (name : String) : Analyzer σ :=
  { a with config := { a.config with rules := a.config.rules.filter fun r => r.1 ≠ name } }

/-- Every enabled block of a name fails when its rule is asked alone. -/
def FailsAlone (a : Analyzer σ) (w : Workspace) (files : List Path) (name : String) : Prop :=
  ∀ block ∈ a.planned, block.2.rule.name = name → a.outputAlone w files block.1 block.2 = none

end Analyzer

/-! ### One job -/

namespace Job

theorem record_rule_config (job : Job σ) (answer : RuleAnswer) (memory : σ) :
    (job.record answer memory).value.1.rule = job.rule ∧
      (job.record answer memory).value.1.config = job.config := by
  cases answer <;> exact ⟨rfl, rfl⟩

theorem record_memory (job : Job σ) (answer : RuleAnswer) (memory : σ) :
    (job.record answer memory).value.1.memory = memory := by
  cases answer <;> rfl

/-- A job keeps what it had only while the answers are violations. -/
theorem record_output (job : Job σ) (answer : RuleAnswer) (memory : σ) :
    (job.record answer memory).value.1.output =
      job.output.bind fun sofar => answer.toOption.map (sofar ++ ·) := by
  cases answer with
  | ok found => cases hout : job.output <;> simp [record, hout, Except.toOption]
  | error e => cases job.output <;> simp [record, Except.toOption]

theorem askFile_of_failed (f : FileContext) (job : Job σ) (hfailed : job.output = none) :
    (job.askFile f).value.1 = job := by
  cases hcheck : job.rule.check with
  | projectWide ask => simp [askFile, hcheck]
  | perFile ask => simp [askFile, hcheck, hasFailed, hfailed]

theorem askFile_of_projectWide (f : FileContext) (job : Job σ)
    {ask : ProjectContext → RuleConfig → σ → Logged (RuleAnswer × σ)}
    (hcheck : job.rule.check = .projectWide ask) : (job.askFile f).value.1 = job := by
  simp [askFile, hcheck]

theorem askFile_of_going (f : FileContext) (job : Job σ)
    {ask : FileContext → RuleConfig → σ → Logged (RuleAnswer × σ)}
    (hcheck : job.rule.check = .perFile ask) (hgoing : job.hasFailed = false) :
    (job.askFile f).value.1 = (job.record (ask f job.config job.memory).value.1
      (ask f job.config job.memory).value.2).value.1 := by
  simp [askFile, hcheck, hgoing]

theorem foldl_askFile_keeps (files : List FileContext) (job : Job σ) :
    (files.foldl (fun job f => (job.askFile f).value.1) job).rule = job.rule ∧
      (files.foldl (fun job f => (job.askFile f).value.1) job).config = job.config := by
  induction files generalizing job with
  | nil => exact ⟨rfl, rfl⟩
  | cons f rest ih =>
    have hstep : (job.askFile f).value.1.rule = job.rule ∧
        (job.askFile f).value.1.config = job.config := by
      cases hcheck : job.rule.check with
      | projectWide ask => simp [askFile, hcheck]
      | perFile ask =>
        by_cases hfailed : job.hasFailed
        · simp [askFile, hcheck, hfailed]
        · simpa [askFile, hcheck, hfailed] using job.record_rule_config _ _
    rw [List.foldl_cons, (ih _).1, (ih _).2]
    exact hstep

theorem foldl_askFile_of_fixed (files : List FileContext) (job : Job σ)
    (hfixed : ∀ f, (job.askFile f).value.1 = job) :
    files.foldl (fun job f => (job.askFile f).value.1) job = job := by
  induction files with
  | nil => rfl
  | cons f rest ih => rw [List.foldl_cons, hfixed f, ih]

/-- **One job over all files.**  What a job for files has in the end is what it had
    before and what its rule gives on its own from the memory of the job on. -/
theorem output_foldl_askFile (files : List FileContext) (job : Job σ)
    {ask : FileContext → RuleConfig → σ → Logged (RuleAnswer × σ)}
    (hcheck : job.rule.check = .perFile ask) :
    (files.foldl (fun job f => (job.askFile f).value.1) job).output =
      job.output.bind fun sofar =>
        (RuleCheck.overFiles ask job.config job.memory files).map (sofar ++ ·) := by
  induction files generalizing job with
  | nil => cases hout : job.output <;> simp [RuleCheck.overFiles, hout]
  | cons f rest ih =>
    cases hout : job.output with
    | none =>
      rw [foldl_askFile_of_fixed _ _ fun f => askFile_of_failed f job hout, hout]
      rfl
    | some sofar =>
      obtain ⟨hrule, hconfig⟩ := job.record_rule_config
        (ask f job.config job.memory).value.1 (ask f job.config job.memory).value.2
      have hgoing : job.hasFailed = false := by simp [hasFailed, hout]
      rw [List.foldl_cons, askFile_of_going f job hcheck hgoing, ih _ (hrule ▸ hcheck), hconfig,
        record_memory, record_output, hout]
      simp only [RuleCheck.overFiles]
      cases hanswer : (ask f job.config job.memory).value.1 with
      | error e => simp [Except.toOption]
      | ok found => simp [Except.toOption, Function.comp_def]

theorem output_askProject (run : ProjectContext) (job : Job σ)
    {ask : ProjectContext → RuleConfig → σ → Logged (RuleAnswer × σ)}
    (hcheck : job.rule.check = .projectWide ask) :
    (job.askProject run).value.1.output =
      job.output.bind fun sofar =>
        (ask run job.config job.memory).value.1.toOption.map (sofar ++ ·) := by
  rw [← record_output job _ (ask run job.config job.memory).value.2]
  simp [askProject, hcheck]

theorem askProject_config (run : ProjectContext) (job : Job σ) :
    (job.askProject run).value.1.config = job.config := by
  cases hcheck : job.rule.check with
  | perFile ask => simp [askProject, hcheck]
  | projectWide ask => simpa [askProject, hcheck] using (job.record_rule_config _ _).2

theorem askProject_of_perFile (run : ProjectContext) (job : Job σ)
    {ask : FileContext → RuleConfig → σ → Logged (RuleAnswer × σ)}
    (hcheck : job.rule.check = .perFile ask) : (job.askProject run).value.1 = job := by
  simp [askProject, hcheck]

end Job

/-! ### All jobs -/

namespace Run

theorem askAll_jobs (ask : Job σ → Logged (Job σ × Account)) (jobs : List (Job σ)) :
    (askAll ask jobs).value.1 = jobs.map fun job => (ask job).value.1 := by
  induction jobs with
  | nil => rfl
  | cons job rest ih => simp [askAll, ih]

/-- Going file by file through all jobs leaves each job as going through the files
    with that job alone. -/
theorem askFiles_jobs (w : Workspace) (resolver : Resolver) (files : List Path)
    (jobs : List (Job σ)) :
    (askFiles w resolver files jobs).value.1 = jobs.map fun job =>
      (readable w resolver files).foldl (fun job f => (job.askFile f).value.1) job := by
  induction files generalizing jobs with
  | nil => simp [askFiles, readable]
  | cons file rest ih =>
    simp only [askFiles, Logged.value_bind, Logged.value_pure, ih]
    cases hread : w.readText (resolver.base.join file) with
    | error reason => simp [askFile, readable, hread, Except.toOption]
    | ok content => simp [askFile, readable, hread, askAll_jobs, Except.toOption]

/-- No file matters to jobs that are all for the whole run, so the phase for files may
    as well be gone through. -/
theorem perFile_jobs (w : Workspace) (resolver : Resolver) (files : List Path)
    (jobs : List (Job σ)) :
    (perFile w resolver files jobs).value.1 = jobs.map fun job =>
      (readable w resolver files).foldl (fun job f => (job.askFile f).value.1) job := by
  by_cases hany : jobs.any fun job => job.rule.isPerFile
  · rw [perFile, if_pos hany, askFiles_jobs]
  · rw [perFile, if_neg hany]
    have hfixed : ∀ job ∈ jobs, (readable w resolver files).foldl
        (fun job f => (job.askFile f).value.1) job = job := by
      intro job hjob
      cases hcheck : job.rule.check with
      | perFile ask =>
        have hperFile : job.rule.isPerFile = true := by simp [Rule.isPerFile, hcheck]
        exact absurd (List.any_eq_true.mpr ⟨job, hjob, hperFile⟩) hany
      | projectWide ask =>
        exact Job.foldl_askFile_of_fixed _ _ fun f => Job.askFile_of_projectWide f job hcheck
    rw [List.map_congr_left hfixed, List.map_id']
    rfl

def jobOf (block : RuleConfig × Registered σ) : Job σ :=
  ⟨block.2.rule.name, block.1, block.2.rule, block.2.memory, some []⟩

theorem plan_jobs (rules : List (Registered σ)) (blocks : List (String × RuleConfig)) :
    (plan rules blocks).value.1 = (planned rules blocks).map jobOf := by
  induction blocks with
  | nil => rfl
  | cons block rest ih =>
    obtain ⟨name, config⟩ := block
    cases hrule : rules.find? (fun r => r.rule.name = name) with
    | none => simpa [plan, planned, hrule] using ih
    | some r =>
      have hname : r.rule.name = name := by simpa using List.find?_some hrule
      simpa [plan, planned, hrule, jobOf, hname] using ih

/-- Leaving out the blocks of a name leaves out the rules of that name. -/
theorem planned_filter (rules : List (Registered σ)) (blocks : List (String × RuleConfig))
    (name : String) :
    planned rules (blocks.filter fun b => b.1 ≠ name) =
      (planned rules blocks).filter fun b => b.2.rule.name ≠ name := by
  induction blocks with
  | nil => rfl
  | cons block rest ih =>
    obtain ⟨other, config⟩ := block
    cases hrule : rules.find? (fun r => r.rule.name = other) with
    | none =>
      by_cases hname : other = name
      · subst hname; simpa [planned, hrule] using ih
      · simpa [planned, hrule, hname] using ih
    | some r =>
      have hother : r.rule.name = other := by simpa using List.find?_some hrule
      by_cases hname : other = name
      · subst hname; simpa [planned, hrule, hother] using ih
      · simpa [planned, hrule, hother, hname] using ih

/-- A job after both phases of a run. -/
def finished (files : List FileContext) (run : ProjectContext) (job : Job σ) : Job σ :=
  ((files.foldl (fun job f => (job.askFile f).value.1) job).askProject run).value.1

/-- **Both phases, job by job.** -/
theorem phases_jobs (w : Workspace) (resolver : Resolver) (files : List Path)
    (jobs : List (Job σ)) :
    (projectWide w resolver files (perFile w resolver files jobs).value.1).value.1 =
      jobs.map (finished (readable w resolver files) (wholeRun w resolver files)) := by
  rw [projectWide, askAll_jobs, perFile_jobs, List.map_map]
  rfl

theorem output_finished (files : List FileContext) (run : ProjectContext)
    (config : RuleConfig) (r : Registered σ) :
    (finished files run (jobOf (config, r))).output = r.alone config files run := by
  cases hcheck : r.rule.check with
  | perFile ask =>
    have hrule := (Job.foldl_askFile_keeps files (jobOf (config, r))).1
    rw [finished, Job.askProject_of_perFile run _ ((congrArg Rule.check hrule).trans hcheck),
      Job.output_foldl_askFile _ _ hcheck]
    simp [jobOf, Registered.alone, hcheck]
  | projectWide ask =>
    rw [finished,
      Job.foldl_askFile_of_fixed _ _ fun f => Job.askFile_of_projectWide f _ hcheck,
      Job.output_askProject run _ hcheck]
    simp [jobOf, Registered.alone, hcheck]

theorem config_finished (files : List FileContext) (run : ProjectContext) (job : Job σ) :
    (finished files run job).config = job.config := by
  rw [finished, Job.askProject_config, (Job.foldl_askFile_keeps files job).2]

end Run

/-! ### What belongs to one name -/

/-- Of what items with different names give one after the other, one item gave what is its
    own and nobody else's. -/
theorem filter_flatMap_of_nodup {α β κ : Type} {items : List α} {name : α → κ}
    {given : α → List β} {own : β → Bool} (hnodup : (items.map name).Nodup) {a : α}
    (ha : a ∈ items) (hown : ∀ b ∈ given a, own b = true)
    (hothers : ∀ c ∈ items, name c ≠ name a → ∀ b ∈ given c, own b = false) :
    (items.flatMap given).filter own = given a := by
  induction items with
  | nil => cases ha
  | cons first rest ih =>
    obtain ⟨hfresh, hnodup⟩ := List.nodup_cons.mp hnodup
    have hnone {c : α} (hc : c ∈ first :: rest) (hne : name c ≠ name a) :
        (given c).filter own = [] := by
      rw [List.filter_eq_nil_iff]
      intro b hb
      rw [hothers c hc hne b hb]
      exact Bool.false_ne_true
    rw [List.flatMap_cons, List.filter_append]
    rcases List.mem_cons.mp ha with rfl | ha
    · have hrest : (rest.flatMap given).filter own = [] := by
        rw [List.filter_flatMap, List.flatMap_eq_nil_iff]
        intro c hc
        refine hnone (List.mem_cons_of_mem _ hc) ?_
        intro hsame
        exact hfresh (List.mem_map.mpr ⟨c, hc, hsame⟩)
      rw [hrest, List.filter_eq_self.mpr hown, List.append_nil]
    · have hfirst : name first ≠ name a := by
        intro hsame
        exact hfresh (List.mem_map.mpr ⟨a, ha, hsame.symm⟩)
      rw [hnone (List.mem_cons_self ..) hfirst, List.nil_append]
      exact ih hnodup ha fun c hc => hothers c (List.mem_cons_of_mem _ hc)

/-! ### A run -/

namespace Analyzer

theorem level_choose (commandLine own global : Option Level) :
    (Level.choose commandLine own global).1 = ((commandLine.or own).or global).getD .all := by
  cases commandLine <;> cases own <;> cases global <;> rfl

theorem contributions_flatMap (a : Analyzer σ) (jobs : List (Job σ)) :
    (a.contributions jobs).value = jobs.flatMap fun job => (a.contribution job).value := by
  induction jobs with
  | nil => rfl
  | cons job rest ih => simp [contributions, ih]

theorem contribution_finished (a : Analyzer σ) (w : Workspace) (files : List Path)
    (block : RuleConfig × Registered σ) :
    (a.contribution (Run.finished (Run.readable w a.resolver files)
      (Run.wholeRun w a.resolver files) (Run.jobOf block))).value =
      a.contributionAlone w files block := by
  obtain ⟨config, r⟩ := block
  have hout := Run.output_finished (Run.readable w a.resolver files)
    (Run.wholeRun w a.resolver files) config r
  have hconfig := Run.config_finished (Run.readable w a.resolver files)
    (Run.wholeRun w a.resolver files) (Run.jobOf (config, r))
  cases halone : a.outputAlone w files config r with
  | none =>
    rw [contribution, hout.trans halone]
    simp [contributionAlone, halone]
  | some found =>
    rw [contribution, hout.trans halone]
    simp only [Level.chooseFor, hconfig, level_choose, contributionAlone, halone]
    rfl

theorem contributions_run (a : Analyzer σ) (w : Workspace) (files : List Path) :
    (a.contributions ((Run.projectWide w a.resolver files
      (Run.perFile w a.resolver files
        (Run.plan a.rules a.config.enabledRules).value.1).value.1).value.1)).value =
      a.planned.flatMap (a.contributionAlone w files) := by
  rw [contributions_flatMap, Run.phases_jobs, Run.plan_jobs, List.map_map, List.flatMap_map]
  congr 1
  funext block
  exact a.contribution_finished w files block

/-- Blocks with different names plan different rules. -/
theorem planned_names_nodup {a : Analyzer σ} (hnodup : (a.config.rules.map Prod.fst).Nodup) :
    (a.planned.map fun block => block.2.rule.name).Nodup := by
  have hsublist (blocks : List (String × RuleConfig)) :
      ((Run.planned a.rules blocks).map fun block => block.2.rule.name).Sublist
        (blocks.map Prod.fst) := by
    induction blocks with
    | nil => exact List.Sublist.refl _
    | cons block rest ih =>
      obtain ⟨name, config⟩ := block
      cases hfound : a.rules.find? fun r => r.rule.name = name with
      | none => simpa [Run.planned, hfound] using ih.cons name
      | some r =>
        have hname : r.rule.name = name := by simpa using List.find?_some hfound
        simpa [Run.planned, hfound, hname] using ih.cons_cons name
  refine (hsublist a.config.enabledRules).nodup ?_
  exact (List.filter_sublist.map Prod.fst).nodup hnodup

theorem planned_without (a : Analyzer σ) (name : String) :
    (a.without name).planned = a.planned.filter fun block => block.2.rule.name ≠ name := by
  rw [planned, planned, ← Run.planned_filter]
  simp only [without, List.filter_filter, Bool.and_comm]

/-- Without a rule that fails alone, the others contribute what they did before. -/
theorem flatMap_without (a : Analyzer σ) (w : Workspace) (files : List Path) (name : String)
    (hfails : a.FailsAlone w files name) :
    (a.without name).planned.flatMap ((a.without name).contributionAlone w files) =
      a.planned.flatMap (a.contributionAlone w files) := by
  have hsilent : ∀ block ∈ a.planned, block.2.rule.name = name →
      a.contributionAlone w files block = [] := by
    intro block hblock hname
    simp [contributionAlone, hfails block hblock hname]
  change (a.without name).planned.flatMap (a.contributionAlone w files) = _
  rw [planned_without]
  revert hsilent
  generalize a.planned = blocks
  intro hsilent
  induction blocks with
  | nil => rfl
  | cons block rest ih =>
    have htail := ih fun b hb => hsilent b (List.mem_cons_of_mem _ hb)
    by_cases hname : block.2.rule.name = name
    · rw [List.filter_cons_of_neg (by simpa using hname), List.flatMap_cons,
        hsilent block List.mem_cons_self hname, htail, List.nil_append]
    · rw [List.filter_cons_of_pos (by simpa using hname), List.flatMap_cons, List.flatMap_cons,
        htail]

/-- What a run reports is the capped list of what its rules contribute. -/
theorem report_run (a : Analyzer σ) (w : Workspace) (files : List Path) :
    ((a.run w files).value.report.violations, (a.run w files).value.report.evicted) =
      Violation.capped a.effectiveCap (a.planned.flatMap (a.contributionAlone w files)) := by
  rw [← contributions_run]
  simp only [run, Logged.value_bind]
  split <;> rfl

end Analyzer

end SourceAudit
