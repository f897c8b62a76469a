/-
  SourceAudit/Proofs/Calls.lean
  =============================
  **Who is asked what, and when.**

  The calls of a run go through the readable files in the order of the list, and for each
  through the rules for files in the order of the configuration that gave no error for the
  files before it; behind them stands each rule for the whole run once
  (`Analyzer.asks_in_order`).  What the rules remember afterwards shows that nobody was asked
  in secret: the first rule of an enabled name remembers what it does after it was asked
  alone, and every other rule what it did before the run (`Analyzer.run_rules`).
-/
import SourceAudit.Proofs.Projection
import SourceAudit.Rule.Prepared

namespace SourceAudit

variable {σ : Type}

/-! ### Calls -/

theorem Step.rule?_of_call? {s : Step} {call : Call} (hcall : s.call? = some call) :
    s.rule? = some call.rule := by
  cases s with
  | unreadable file reason => cases hcall
  | asked asked answer =>
    cases hcall
    rfl

namespace Registered

/-- The rule is for files and gives no error for some of them. -/
def goesOnAfter (r : Registered σ) (config : RuleConfig) (before : List FileContext) : Bool :=
  match r.rule.check with
  | .projectWide _ => false
  | .perFile ask => (RuleCheck.overFiles ask config r.memory before).isSome

theorem stepOn?_call (r : Registered σ) (config : RuleConfig) (before : List FileContext)
    (f : FileContext) :
    (r.stepOn? config before f).bind Step.call? =
      if r.goesOnAfter config before then some (.file r.rule.name f.path f.content) else none := by
  cases hcheck : r.rule.check with
  | projectWide ask => simp [stepOn?, goesOnAfter, hcheck]
  | perFile ask =>
    simp only [stepOn?, goesOnAfter, hcheck, RuleCheck.memoryAfter_eq]
    cases RuleCheck.overFiles ask config r.memory before <;> rfl

theorem stepOnRun?_call (r : Registered σ) (config : RuleConfig) (run : ProjectContext) :
    (r.stepOnRun? config run).bind Step.call? =
      if !r.rule.isPerFile then some (.project r.rule.name) else none := by
  cases hcheck : r.rule.check <;> simp [stepOnRun?, Rule.isPerFile, hcheck, Step.call?]

end Registered

namespace Run

/-- The calls about a file, when the readable files before it are known. -/
def callsOn (blocks : List (RuleConfig × Registered σ)) (before : List FileContext)
    (f : FileContext) : List Call :=
  (blocks.filter fun block => block.2.goesOnAfter block.1 before).map fun block =>
    .file block.2.rule.name f.path f.content

def callsOnRun (blocks : List (RuleConfig × Registered σ)) : List Call :=
  (blocks.filter fun block => !block.2.rule.isPerFile).map fun block =>
    .project block.2.rule.name

/-- The calls of a run about the files that can be read. -/
def callsInOrder (files : List FileContext) (blocks : List (RuleConfig × Registered σ)) :
    List Call :=
  (files.zipIdx.flatMap fun (f, i) => callsOn blocks (files.take i) f) ++ callsOnRun blocks

theorem filterMap_stepOn?_call (blocks : List (RuleConfig × Registered σ))
    (before : List FileContext) (f : FileContext) :
    (blocks.filterMap fun block => block.2.stepOn? block.1 before f).filterMap Step.call? =
      callsOn blocks before f := by
  rw [List.filterMap_filterMap, callsOn, ← List.filterMap_eq_map, List.filterMap_filter]
  simp only [Registered.stepOn?_call, Function.comp_apply]

theorem filterMap_stepOnRun?_call (blocks : List (RuleConfig × Registered σ))
    (run : ProjectContext) :
    (blocks.filterMap fun block => block.2.stepOnRun? block.1 run).filterMap Step.call? =
      callsOnRun blocks := by
  rw [List.filterMap_filterMap, callsOnRun, ← List.filterMap_eq_map, List.filterMap_filter]
  simp only [Registered.stepOnRun?_call, Function.comp_apply]

/-- Files that cannot be read are skipped, the others are counted without them. -/
theorem flatMap_stepsOn_call (w : Workspace) (resolver : Resolver)
    (blocks : List (RuleConfig × Registered σ)) (done rest : List Path) :
    ((rest.zipIdx done.length).flatMap fun (file, i) =>
      stepsOn w resolver blocks (readable w resolver ((done ++ rest).take i)) file).filterMap
        Step.call? =
      ((readable w resolver rest).zipIdx (readable w resolver done).length).flatMap fun (f, i) =>
        callsOn blocks ((readable w resolver (done ++ rest)).take i) f := by
  induction rest generalizing done with
  | nil => rfl
  | cons file rest ih =>
    have hnext := ih (done ++ [file])
    simp only [List.length_append, List.length_singleton, List.append_assoc,
      List.singleton_append] at hnext
    simp only [List.zipIdx_cons, List.flatMap_cons, List.take_left, List.filterMap_append, hnext]
    have hcut : readable w resolver (file :: rest) =
        readable w resolver [file] ++ readable w resolver rest := readable_append w resolver [file] rest
    cases hread : w.readText (resolver.base.join file) with
    | error reason =>
      rw [hcut, readable_append w resolver done [file], readable_of_error hread, List.append_nil,
        stepsOn, contextOf_error hread]
      rfl
    | ok content =>
      have hbefore : (readable w resolver (done ++ file :: rest)).take
          (readable w resolver done).length = readable w resolver done := by
        rw [readable_append, List.take_left]
      rw [hcut, readable_append w resolver done [file], readable_of_ok hread, stepsOn,
        contextOf_ok hread]
      simp only [filterMap_stepOn?_call, List.singleton_append, List.zipIdx_cons,
        List.flatMap_cons, List.length_append, List.length_singleton, hbefore]

theorem callsOn_of_none {blocks : List (RuleConfig × Registered σ)}
    (hnone : ¬ blocks.any fun block => block.2.rule.isPerFile) (before : List FileContext)
    (f : FileContext) : callsOn blocks before f = [] := by
  rw [callsOn, List.map_eq_nil_iff, List.filter_eq_nil_iff]
  intro block hblock hgoes
  cases hcheck : block.2.rule.check with
  | projectWide ask => simp [Registered.goesOnAfter, hcheck] at hgoes
  | perFile ask =>
    exact hnone (List.any_eq_true.mpr ⟨block, hblock, by simp [Rule.isPerFile, hcheck]⟩)

theorem course_calls (w : Workspace) (resolver : Resolver) (files : List Path)
    (blocks : List (RuleConfig × Registered σ)) :
    (course w resolver files blocks).filterMap Step.call? =
      callsInOrder (readable w resolver files) blocks := by
  rw [course, callsInOrder, List.filterMap_append, filterMap_stepOnRun?_call]
  split
  next hany =>
    have hfiles := flatMap_stepsOn_call w resolver blocks [] files
    simp only [List.length_nil, List.nil_append] at hfiles
    rw [hfiles]
    rfl
  next hany =>
    simp only [callsOn_of_none hany]
    congr 1
    exact (List.flatMap_eq_nil_iff.mpr fun _ _ => rfl).symm

end Run

/-! ### Memories -/

/-- What a rule remembers after it was asked alone. -/
def Registered.memoryAlone (r : Registered σ) (config : RuleConfig) (files : List FileContext)
    (run : ProjectContext) : σ :=
  match r.rule.check with
  | .perFile ask => RuleCheck.memoryOver ask config r.memory files
  | .projectWide ask => (ask run config r.memory).value.2

namespace Job

theorem askProject_name (run : ProjectContext) (job : Job σ) :
    (job.askProject run).value.1.name = job.name := by
  cases hcheck : job.rule.check with
  | perFile ask => simp [askProject, hcheck]
  | projectWide ask =>
    cases hanswer : (ask run job.config job.memory).value.1 <;>
      simp [askProject, hcheck, hanswer, record]

end Job

namespace Run

theorem memory_finished (files : List FileContext) (run : ProjectContext)
    (config : RuleConfig) (r : Registered σ) :
    (finished files run (jobOf (config, r))).memory = r.memoryAlone config files run := by
  cases hcheck : r.rule.check with
  | perFile ask =>
    have hrule := (Job.foldl_askFile_keeps files (jobOf (config, r))).1
    rw [finished, Job.askProject_of_perFile run _ ((congrArg Rule.check hrule).trans hcheck),
      Job.memory_foldl_askFile _ _ hcheck rfl]
    simp [jobOf, Registered.memoryAlone, hcheck]
  | projectWide ask =>
    rw [finished, Job.foldl_askFile_of_fixed _ _ fun f => Job.askFile_of_projectWide f _ hcheck]
    simp [Job.askProject, jobOf, Registered.memoryAlone, hcheck, Job.record_memory]

theorem name_finished (files : List FileContext) (run : ProjectContext) (job : Job σ) :
    (finished files run job).name = job.name := by
  rw [finished, Job.askProject_name, Job.foldl_askFile_name]

/-- The rules when the first of each name has got a memory. -/
def withMemories (memory : Registered σ → σ) (rules : List (Registered σ)) :
    List (Registered σ) :=
  rules.mapIdx fun i r =>
    if r.rule.name ∈ (rules.take i).map fun s => s.rule.name then r
    else { r with memory := memory r }

theorem withMemories_same (rules : List (Registered σ)) :
    withMemories Registered.memory rules = rules := by
  apply List.ext_getElem?
  intro i
  simp [withMemories, List.getElem?_mapIdx]

theorem withMemories_names (memory : Registered σ → σ) (rules : List (Registered σ)) :
    (withMemories memory rules).map (fun r => r.rule.name) = rules.map fun r => r.rule.name := by
  apply List.ext_getElem?
  intro i
  rw [withMemories, List.getElem?_map, List.getElem?_map, List.getElem?_mapIdx, Option.map_map]
  congr 1
  funext r
  simp only [Function.comp_apply]
  split <;> rfl

theorem withMemories_twice (first second : Registered σ → σ) (rules : List (Registered σ)) :
    withMemories second (withMemories first rules) =
      withMemories (fun r => second { r with memory := first r }) rules := by
  apply List.ext_getElem?
  intro i
  have hnames : ((withMemories first rules).take i).map (fun r => r.rule.name) =
      (rules.take i).map fun r => r.rule.name := by
    rw [List.map_take, List.map_take, withMemories_names]
  rw [withMemories, List.getElem?_mapIdx, hnames, withMemories, withMemories,
    List.getElem?_mapIdx, List.getElem?_mapIdx, Option.map_map]
  congr 1
  funext r
  simp only [Function.comp_apply]
  by_cases hfirst : r.rule.name ∈ (rules.take i).map fun s => s.rule.name
  · simp only [hfirst, if_true]
  · simp only [hfirst, if_false]

/-- Only the first rules of their names are looked at. -/
theorem withMemories_congr {memory other : Registered σ → σ} {rules : List (Registered σ)}
    (hsame : ∀ r, rules.find? (fun s => s.rule.name = r.rule.name) = some r →
      memory r = other r) : withMemories memory rules = withMemories other rules := by
  apply List.ext_getElem?
  intro i
  rw [withMemories, withMemories, List.getElem?_mapIdx, List.getElem?_mapIdx]
  cases hr : rules[i]? with
  | none => rfl
  | some r =>
    simp only [Option.map_some]
    split
    · rfl
    next hfirst =>
      rw [hsame r]
      obtain ⟨hi, hget⟩ := List.getElem?_eq_some_iff.mp hr
      refine List.find?_eq_some_iff_getElem.mpr ⟨decide_eq_true rfl, i, hi, hget, ?_⟩
      intro j hj
      rw [Bool.not_eq_true', decide_eq_false_iff_not]
      intro hname
      exact hfirst (List.mem_map.mpr ⟨rules[j], List.mem_take_iff_getElem.mpr
        ⟨j, by omega, rfl⟩, hname⟩)

theorem remember_eq (name : String) (memory : σ) (rules : List (Registered σ)) :
    remember name memory rules =
      withMemories (fun r => if r.rule.name = name then memory else r.memory) rules := by
  apply List.ext_getElem?
  intro i
  rw [withMemories, List.getElem?_mapIdx]
  induction rules generalizing i with
  | nil => rfl
  | cons r rest ih =>
    cases i with
    | zero => by_cases hr : r.rule.name = name <;> simp [remember, hr]
    | succ i =>
      simp only [remember, List.getElem?_cons_succ, List.take_succ_cons, List.map_cons,
        List.mem_cons]
      by_cases hr : r.rule.name = name
      · simp only [hr, if_true, List.getElem?_cons_succ]
        cases rest[i]? with
        | none => rfl
        | some s => by_cases hs : s.rule.name = name <;> simp [hs]
      · simp only [hr, if_false, List.getElem?_cons_succ, ih]
        cases rest[i]? with
        | none => rfl
        | some s =>
          have hother : ¬ name = r.rule.name := fun hsame => hr hsame.symm
          by_cases hs : s.rule.name = name <;> simp [hs, hother]

theorem rememberAll_eq {jobs : List (Job σ)} (hnodup : (jobs.map Job.name).Nodup)
    (rules : List (Registered σ)) :
    rememberAll jobs rules = withMemories (fun r =>
      ((jobs.find? fun job => job.name = r.rule.name).map Job.memory).getD r.memory) rules := by
  induction jobs generalizing rules with
  | nil => exact (withMemories_same rules).symm
  | cons job rest ih =>
    rw [List.map_cons, List.nodup_cons] at hnodup
    obtain ⟨hfresh, hnodup⟩ := hnodup
    rw [rememberAll, List.foldl_cons, ← rememberAll, ih hnodup, remember_eq, withMemories_twice]
    congr 1
    funext r
    by_cases hname : r.rule.name = job.name
    · have hnone : rest.find? (fun other => other.name = r.rule.name) = none := by
        rw [List.find?_eq_none]
        intro other hother hsame
        rw [decide_eq_true_eq, hname] at hsame
        exact hfresh (List.mem_map.mpr ⟨other, hother, hsame⟩)
      simp [hname, hname ▸ hnone]
    · have hother : ¬ job.name = r.rule.name := fun hsame => hname hsame.symm
      simp [hname, hother]

theorem planned_find? {rules : List (Registered σ)} {name : String} {r : Registered σ}
    (hfirst : rules.find? (fun s => s.rule.name = name) = some r)
    (blocks : List (String × RuleConfig)) :
    (planned rules blocks).find? (fun block => block.2.rule.name = name) =
      (blocks.find? fun block => block.1 = name).map fun block => (block.2, r) := by
  induction blocks with
  | nil => rfl
  | cons block rest ih =>
    obtain ⟨other, config⟩ := block
    by_cases hname : other = name
    · subst hname
      have hr : r.rule.name = other := by simpa using List.find?_some hfirst
      simp [planned, hfirst, hr]
    · cases hrule : rules.find? (fun s => s.rule.name = other) with
      | none => simpa [planned, hrule, hname] using ih
      | some s =>
        have hs : s.rule.name = other := by simpa using List.find?_some hrule
        simpa [planned, hrule, hs, hname] using ih

end Run

/-! ### The run -/

namespace Analyzer

/-- What a rule that is the first of its name remembers after a run. -/
def memoryAlone (a : Analyzer σ) (w : Workspace) (files : List Path) (r : Registered σ) : σ :=
  match a.config.enabledRules.find? fun block => block.1 = r.rule.name with
  | none => r.memory
  | some (_, config) =>
    r.memoryAlone config (Run.readable w a.resolver files) (Run.wholeRun w a.resolver files)

theorem run_rules {a : Analyzer σ} (hnodup : (a.config.rules.map Prod.fst).Nodup)
    (w : Workspace) (files : List Path) :
    (a.run w files).value.rules = Run.withMemories (a.memoryAlone w files) a.rules := by
  have hrun : (a.run w files).value.rules = Run.rememberAll
      (a.planned.map fun block => Run.finished (Run.readable w a.resolver files)
        (Run.wholeRun w a.resolver files) (Run.jobOf block)) a.rules := by
    have hjobs := Run.phases_jobs w a.resolver files
      (Run.plan a.rules a.config.enabledRules).value.1
    rw [Run.plan_jobs, List.map_map] at hjobs
    rw [planned_eq, ← Function.comp_def, ← hjobs, ← Run.plan_jobs]
    simp only [run, Logged.value_bind]
    split <;> rfl
  have hnames : ((a.planned.map fun block => Run.finished (Run.readable w a.resolver files)
      (Run.wholeRun w a.resolver files) (Run.jobOf block)).map Job.name).Nodup := by
    rw [List.map_map]
    exact (congrArg List.Nodup (List.map_congr_left fun block _ => Run.name_finished _ _ _)).mpr
      (planned_names_nodup hnodup)
  rw [hrun, Run.rememberAll_eq hnames]
  apply Run.withMemories_congr
  intro r hfirst
  rw [List.find?_map]
  simp only [Function.comp_def, Run.name_finished, Run.jobOf]
  rw [planned_eq, Run.planned_find? hfirst, memoryAlone]
  cases a.config.enabledRules.find? fun block => block.1 = r.rule.name with
  | none => rfl
  | some block => exact Run.memory_finished _ _ block.2 r

/-- What is planned is enabled and the first of its name. -/
theorem enabled_of_planned {a : Analyzer σ} {block : RuleConfig × Registered σ}
    (hblock : block ∈ a.planned) :
    (block.2.rule.name, block.1) ∈ a.config.rules ∧ block.1.enabled = true ∧
      a.rules.find? (fun r => r.rule.name = block.2.rule.name) = some block.2 := by
  obtain ⟨⟨name, config⟩, henabled, hfound⟩ := List.mem_filterMap.mp hblock
  obtain ⟨r, hfirst, rfl⟩ := Option.map_eq_some_iff.mp hfound
  have hr : r.rule.name = name := by simpa using List.find?_some hfirst
  subst hr
  obtain ⟨hconfig, henabled⟩ := List.mem_filter.mp henabled
  exact ⟨hconfig, henabled, hfirst⟩

/-- **Who is asked in a run.**  The calls are those about the readable files, file by file and
    rule by rule, and then those about the run.  Each is of an enabled name and its first
    rule, none comes behind an error of its rule, and there are no others. -/
theorem asks_in_order (a : Analyzer σ) (w : Workspace) (files : List Path) :
    (a.run w files).value.calls =
        Run.callsInOrder (Run.readable w a.resolver files) a.planned ∧
      (a.run w files).value.calls = (a.course w files).filterMap Step.call? ∧
      (∀ call ∈ (a.run w files).value.calls, ∃ config r,
        (call.rule, config) ∈ a.config.rules ∧ config.enabled = true ∧
          a.rules.find? (fun r => r.rule.name = call.rule) = some r) ∧
      ((a.config.rules.map Prod.fst).Nodup →
        (∀ before call e after,
          a.course w files = before ++ .asked call (.error e) :: after →
            ∀ later ∈ after.filterMap Step.call?, later.rule ≠ call.rule) ∧
        (a.run w files).value.rules = Run.withMemories (a.memoryAlone w files) a.rules) := by
  obtain ⟨hcourse, -⟩ := a.account_run w files
  refine ⟨hcourse.trans (Run.course_calls ..), hcourse, ?_,
    fun hnodup => ⟨?_, run_rules hnodup w files⟩⟩
  · intro call hcall
    rw [hcourse, List.mem_filterMap] at hcall
    obtain ⟨s, hs, hcall⟩ := hcall
    obtain ⟨block, hblock, hname⟩ := Run.block_of_mem_course hs (Step.rule?_of_call? hcall)
    obtain ⟨hconfig, henabled, hfirst⟩ := enabled_of_planned hblock
    exact ⟨block.1, block.2, hname ▸ hconfig, henabled, hname ▸ hfirst⟩
  · intro before call e after hcut later hlater hname
    obtain ⟨s, hs, hcall⟩ := List.mem_filterMap.mp hlater
    refine Run.silent_after_error (planned_names_nodup hnodup) hcut s hs ?_
    rw [Step.rule?_of_call? hcall, hname]

end Analyzer

/-! ### A run in which a rule fails -/

/-- Two texts and a file that is not one. -/
def scriptedWorkspace : Workspace where
  tree := .directory [("w", .directory
    [("a.txt", .file (.text "1\n")), ("b.txt", .file (.text "2\n")),
     ("raw.txt", .file (.bytes [255]))])]
  workingNames := ["w"]
  home := none
  settingsDirectory := none

def scriptedFiles : List Path := [⟨"a.txt"⟩, ⟨"raw.txt"⟩, ⟨"b.txt"⟩, ⟨"a.txt"⟩]

/-- One rule loses count at the second file and one breaks down at the end; a second rule of
    the first name, a block that is off and a block without a rule stand beside them. -/
def scriptedAnalyzer : Analyzer Nat where
  root := ⟨"/w"⟩
  rules :=
    [⟨.prepared "count" true [.ok [⟨.error, "one", none, none⟩], .error (.tool "lost count")]
        (.ok []), 0⟩,
     ⟨.prepared "whole" false [] (.error (.panicked none)), 0⟩,
     ⟨.prepared "count" true [] (.ok []), 0⟩,
     ⟨.prepared "size" true [] (.ok [⟨.warning, "large", none, none⟩]), 0⟩,
     ⟨.prepared "off" true [] (.ok []), 0⟩]
  config := { Config.default with rules :=
    [("whole", .default), ("missing", .default), ("count", .default),
     ("off", { RuleConfig.default with enabled := false }), ("size", .default)] }
  level := none
  cap := none

namespace Analyzer

/-- The rule that lost count is not asked about the last file, and its double never. -/
theorem asks_in_order_scripted :
    (scriptedAnalyzer.config.rules.map Prod.fst).Nodup ∧
      (scriptedAnalyzer.run scriptedWorkspace scriptedFiles).value.calls =
        [.file "count" ⟨"/w/a.txt"⟩ "1\n", .file "size" ⟨"/w/a.txt"⟩ "1\n",
          .file "count" ⟨"/w/b.txt"⟩ "2\n", .file "size" ⟨"/w/b.txt"⟩ "2\n",
          .file "size" ⟨"/w/a.txt"⟩ "1\n", .project "whole"] ∧
      (∃ config r, ("size", config) ∈ scriptedAnalyzer.config.rules ∧ config.enabled = true ∧
        scriptedAnalyzer.rules.find? (fun r => r.rule.name = "size") = some r) ∧
      (∀ later ∈ ((scriptedAnalyzer.course scriptedWorkspace scriptedFiles).drop 4).filterMap
        Step.call?, later.rule ≠ "count") ∧
      ((scriptedAnalyzer.run scriptedWorkspace scriptedFiles).value.rules.map
        fun r => (r.rule.name, r.memory)) =
        [("count", 2), ("whole", 1), ("count", 0), ("size", 3), ("off", 0)] := by
  have hnodup : (scriptedAnalyzer.config.rules.map Prod.fst).Nodup := by decide
  have herror : scriptedAnalyzer.course scriptedWorkspace scriptedFiles =
      (scriptedAnalyzer.course scriptedWorkspace scriptedFiles).take 3 ++
        .asked (.file "count" ⟨"/w/b.txt"⟩ "2\n") (.error (.tool "lost count")) ::
          (scriptedAnalyzer.course scriptedWorkspace scriptedFiles).drop 4 := by
    rfl
  obtain ⟨hcalls, -, hasked, hrun⟩ :=
    asks_in_order scriptedAnalyzer scriptedWorkspace scriptedFiles
  obtain ⟨hsilent, hrules⟩ := hrun hnodup
  have hlist : (scriptedAnalyzer.run scriptedWorkspace scriptedFiles).value.calls =
      [.file "count" ⟨"/w/a.txt"⟩ "1\n", .file "size" ⟨"/w/a.txt"⟩ "1\n",
        .file "count" ⟨"/w/b.txt"⟩ "2\n", .file "size" ⟨"/w/b.txt"⟩ "2\n",
        .file "size" ⟨"/w/a.txt"⟩ "1\n", .project "whole"] := by
    rw [hcalls]
    decide +kernel
  refine ⟨hnodup, hlist, ?_, hsilent _ _ _ _ herror, ?_⟩
  · exact hasked (.file "size" ⟨"/w/a.txt"⟩ "1\n") (by rw [hlist]; decide)
  · rw [hrules]
    decide +kernel

end Analyzer

end SourceAudit
