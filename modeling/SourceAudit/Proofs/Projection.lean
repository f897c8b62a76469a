/-
  SourceAudit/Proofs/Projection.lean
  ==================================
  **One rule in the course of a run.**

  Where the blocks of a configuration have different names, the steps of a run that belong
  to one name are those the rule takes on its own (`Run.course_filter`).  On its own a rule
  for files goes from file to file and ends with its first error, so in a run too nothing
  is asked of a rule behind an error (`Run.silent_after_error`), and the diagnostics of a
  name are at most one (`Registered.ownSteps_diagnostics`).
-/
import SourceAudit.Proofs.Course
import Mathlib.Data.List.Basic

namespace SourceAudit

variable {σ : Type}

/-! ### A rule on its own -/

/-- The steps of a rule for files on its own, up to its first error. -/
def RuleCheck.stepsOver (name : String)
    (ask : FileContext → RuleConfig → σ → Logged (RuleAnswer × σ)) (config : RuleConfig) :
    σ → List FileContext → List Step
  | _, [] => []
  | memory, f :: rest =>
    let (answer, memory) := (ask f config memory).value
    .asked (.file name f.path f.content) answer ::
      match answer with
      | .error _ => []
      | .ok _ => stepsOver name ask config memory rest

namespace Registered

def ownSteps (r : Registered σ) (config : RuleConfig) (files : List FileContext)
    (run : ProjectContext) : List Step :=
  match r.rule.check with
  | .perFile ask => RuleCheck.stepsOver r.rule.name ask config r.memory files
  | .projectWide ask => [.asked (.project r.rule.name) (ask run config r.memory).value.1]

end Registered

namespace Step

def rule? : Step → Option String
  | .unreadable _ _ => none
  | .asked call _ => some call.rule

/-- A diagnostic names the rule of its step. -/
theorem diagnostic?_rule {s : Step} {d : Diagnostic} (hd : s.diagnostic? = some d) :
    d.rule = s.rule? := by
  cases s with
  | unreadable file reason =>
    cases hd
    rfl
  | asked call answer =>
    cases answer with
    | ok found => cases hd
    | error e =>
      cases hd
      rfl

end Step

/-- A rule for files has a first error, which is its last step, or gives violations for
    every file. -/
theorem RuleCheck.stepsOver_cases (name : String)
    (ask : FileContext → RuleConfig → σ → Logged (RuleAnswer × σ)) (config : RuleConfig)
    (memory : σ) (files : List FileContext) :
    (RuleCheck.overFiles ask config memory files = none ∧
      ∃ front call e, RuleCheck.stepsOver name ask config memory files =
        front ++ [.asked call (.error e)] ∧ call.rule = name ∧
          front.filterMap Step.diagnostic? = []) ∨
    ((∃ found, RuleCheck.overFiles ask config memory files = some found) ∧
      (RuleCheck.stepsOver name ask config memory files).filterMap Step.diagnostic? = []) := by
  induction files generalizing memory with
  | nil => exact .inr ⟨⟨[], rfl⟩, rfl⟩
  | cons f rest ih =>
    cases hanswer : (ask f config memory).value.1 with
    | error e =>
      refine .inl ⟨by simp [overFiles, hanswer], [], .file name f.path f.content, e, ?_, rfl, rfl⟩
      simp [stepsOver, hanswer]
    | ok found =>
      have hsteps : stepsOver name ask config memory (f :: rest) =
          .asked (.file name f.path f.content) (.ok found) ::
            stepsOver name ask config (ask f config memory).value.2 rest := by
        simp [stepsOver, hanswer]
      rcases ih (ask f config memory).value.2 with
        ⟨hnone, front, call, e, hfront, hcall, hquiet⟩ | ⟨⟨more, hmore⟩, hquiet⟩
      · refine .inl ⟨by simp [overFiles, hanswer, hnone],
          .asked (.file name f.path f.content) (.ok found) :: front, call, e, ?_, hcall, hquiet⟩
        rw [hsteps, hfront, List.cons_append]
      · refine .inr ⟨⟨found ++ more, by simp [overFiles, hanswer, hmore]⟩, ?_⟩
        rw [hsteps]
        exact hquiet

namespace Registered

theorem ownSteps_cases (r : Registered σ) (config : RuleConfig) (files : List FileContext)
    (run : ProjectContext) :
    (r.alone config files run = none ∧
      ∃ front call e, r.ownSteps config files run = front ++ [.asked call (.error e)] ∧
        call.rule = r.rule.name ∧ front.filterMap Step.diagnostic? = []) ∨
    ((∃ found, r.alone config files run = some found) ∧
      (r.ownSteps config files run).filterMap Step.diagnostic? = []) := by
  cases hcheck : r.rule.check with
  | perFile ask =>
    simp only [alone, ownSteps, hcheck]
    exact RuleCheck.stepsOver_cases ..
  | projectWide ask =>
    simp only [alone, ownSteps, hcheck]
    cases (ask run config r.memory).value.1 with
    | error e => exact .inl ⟨rfl, [], _, e, rfl, rfl, rfl⟩
    | ok found => exact .inr ⟨⟨found, rfl⟩, rfl⟩

/-- A rule that gives nothing on its own has one diagnostic, any other has none. -/
theorem ownSteps_diagnostics (r : Registered σ) (config : RuleConfig) (files : List FileContext)
    (run : ProjectContext) :
    (r.alone config files run = none ∧ ∃ e : RuleError,
      (r.ownSteps config files run).filterMap Step.diagnostic? =
        [.ofRule r.rule.name e.message]) ∨
    ((∃ found, r.alone config files run = some found) ∧
      (r.ownSteps config files run).filterMap Step.diagnostic? = []) := by
  rcases r.ownSteps_cases config files run with ⟨hnone, front, call, e, hsteps, hcall, hquiet⟩ | h
  · refine .inl ⟨hnone, e, ?_⟩
    rw [hsteps, List.filterMap_append, hquiet, ← hcall]
    rfl
  · exact .inr h

/-- On its own a rule ends with its first error. -/
theorem ownSteps_end (r : Registered σ) {config : RuleConfig} {files : List FileContext}
    {run : ProjectContext} {before after : List Step} {call : Call} {e : RuleError}
    (hsteps : r.ownSteps config files run = before ++ .asked call (.error e) :: after) :
    after = [] := by
  have hloud (front back : List Step) :
      (front ++ .asked call (.error e) :: back).filterMap Step.diagnostic? ≠ [] := by
    simp [Step.diagnostic?]
  rcases r.ownSteps_cases config files run with ⟨-, front, last, e', hcut, -, hquiet⟩ | ⟨-, hquiet⟩
  · rcases List.eq_nil_or_concat after with hnil | ⟨back, s, rfl⟩
    · exact hnil
    · rw [hcut, List.concat_eq_append, ← List.cons_append, ← List.append_assoc] at hsteps
      obtain ⟨hfront, -⟩ := List.append_inj' hsteps rfl
      rw [hfront] at hquiet
      exact absurd hquiet (hloud before back)
  · rw [hsteps] at hquiet
    exact absurd hquiet (hloud before after)

end Registered

/-! ### The steps of one name -/

/-- Of steps that items take one after the other, those with the name of one item are its own. -/
theorem filter_filterMap_of_nodup {α : Type} {items : List α} {name : α → String}
    {step? : α → Option Step} (hnodup : (items.map name).Nodup)
    (hrule : ∀ a ∈ items, ∀ s, step? a = some s → s.rule? = some (name a)) {a : α}
    (ha : a ∈ items) :
    (items.filterMap step?).filter (fun s => s.rule? = some (name a)) = (step? a).toList := by
  rw [List.filterMap_eq_flatMap_toList]
  refine filter_flatMap_of_nodup hnodup ha ?_ ?_
  · intro s hs
    rw [hrule a ha s (Option.mem_toList.mp hs), decide_eq_true rfl]
  · intro c hc hname s hs
    rw [hrule c hc s (Option.mem_toList.mp hs), decide_eq_false]
    intro hsame
    exact hname (Option.some.inj hsame)

namespace Registered

theorem stepOn?_rule {r : Registered σ} {config : RuleConfig} {before : List FileContext}
    {f : FileContext} {s : Step} (hs : r.stepOn? config before f = some s) :
    s.rule? = some r.rule.name := by
  cases hcheck : r.rule.check with
  | projectWide ask => simp [stepOn?, hcheck] at hs
  | perFile ask =>
    simp only [stepOn?, hcheck, Option.map_eq_some_iff] at hs
    obtain ⟨memory, -, rfl⟩ := hs
    rfl

theorem stepOnRun?_rule {r : Registered σ} {config : RuleConfig} {run : ProjectContext} {s : Step}
    (hs : r.stepOnRun? config run = some s) : s.rule? = some r.rule.name := by
  cases hcheck : r.rule.check with
  | perFile ask => simp [stepOnRun?, hcheck] at hs
  | projectWide ask =>
    simp only [stepOnRun?, hcheck, Option.some.injEq] at hs
    subst hs
    rfl

end Registered

theorem RuleCheck.memoryAfter_append
    (ask : FileContext → RuleConfig → σ → Logged (RuleAnswer × σ)) (config : RuleConfig)
    (memory : σ) (files more : List FileContext) :
    memoryAfter ask config memory (files ++ more) =
      (memoryAfter ask config memory files).bind (memoryAfter ask config · more) := by
  induction files generalizing memory with
  | nil => rfl
  | cons f rest ih =>
    cases hanswer : (ask f config memory).value.1 with
    | error e => simp [memoryAfter, hanswer]
    | ok found => simp [memoryAfter, hanswer, ih]

namespace Run

variable {w : Workspace} {resolver : Resolver} {blocks : List (RuleConfig × Registered σ)}

/-- The step of one rule at a file, if the file can be read. -/
def stepAt? (w : Workspace) (resolver : Resolver) (block : RuleConfig × Registered σ)
    (before : List FileContext) (file : Path) : Option Step :=
  (contextOf w resolver file).toOption.bind (block.2.stepOn? block.1 before)

theorem stepsOn_filter (hnodup : (blocks.map fun block => block.2.rule.name).Nodup)
    {block : RuleConfig × Registered σ} (hblock : block ∈ blocks) (before : List FileContext)
    (file : Path) :
    (stepsOn w resolver blocks before file).filter (fun s => s.rule? = some block.2.rule.name) =
      (stepAt? w resolver block before file).toList := by
  rw [stepsOn, stepAt?]
  cases contextOf w resolver file with
  | error reason => rfl
  | ok f => exact filter_filterMap_of_nodup hnodup (fun b _ s hs => Registered.stepOn?_rule hs) hblock

/-- The steps of a rule for files at each file are those it takes on its own. -/
theorem flatMap_stepAt? (w : Workspace) (resolver : Resolver) {block : RuleConfig × Registered σ}
    {ask : FileContext → RuleConfig → σ → Logged (RuleAnswer × σ)}
    (hcheck : block.2.rule.check = .perFile ask) (done rest : List Path) :
    ((rest.zipIdx done.length).flatMap fun (file, i) =>
      (stepAt? w resolver block (readable w resolver ((done ++ rest).take i)) file).toList) =
    match RuleCheck.memoryAfter ask block.1 block.2.memory (readable w resolver done) with
    | none => []
    | some memory =>
      RuleCheck.stepsOver block.2.rule.name ask block.1 memory (readable w resolver rest) := by
  induction rest generalizing done with
  | nil =>
    cases RuleCheck.memoryAfter ask block.1 block.2.memory (readable w resolver done) <;> rfl
  | cons file rest ih =>
    have hnext := ih (done ++ [file])
    simp only [List.length_append, List.length_singleton, List.append_assoc,
      List.singleton_append, readable_append] at hnext
    simp only [List.zipIdx_cons, List.flatMap_cons, List.take_left, hnext]
    have hcut : readable w resolver (file :: rest) =
        readable w resolver [file] ++ readable w resolver rest := readable_append w resolver [file] rest
    cases hread : w.readText (resolver.base.join file) with
    | error reason =>
      rw [hcut, readable_of_error hread, List.append_nil, stepAt?, contextOf_error hread]
      rfl
    | ok content =>
      rw [hcut, readable_of_ok hread, stepAt?, contextOf_ok hread, RuleCheck.memoryAfter_append]
      simp only [Except.toOption, Option.bind_some, Registered.stepOn?, hcheck]
      cases RuleCheck.memoryAfter ask block.1 block.2.memory (readable w resolver done) with
      | none => rfl
      | some memory =>
        cases hanswer : (ask ⟨resolver.base.join file, content, resolver⟩ block.1 memory).value.1 with
        | error e => simp [RuleCheck.memoryAfter, RuleCheck.stepsOver, hanswer]
        | ok found => simp [RuleCheck.memoryAfter, RuleCheck.stepsOver, hanswer]

/-- **One rule in the course.**  The steps of a run that belong to one name are those the
    rule of that name takes on its own. -/
theorem course_filter (w : Workspace) (resolver : Resolver)
    (hnodup : (blocks.map fun block => block.2.rule.name).Nodup)
    {block : RuleConfig × Registered σ} (hblock : block ∈ blocks) (files : List Path) :
    (course w resolver files blocks).filter (fun s => s.rule? = some block.2.rule.name) =
      block.2.ownSteps block.1 (readable w resolver files) (wholeRun w resolver files) := by
  have hrun : (blocks.filterMap fun b => b.2.stepOnRun? b.1 (wholeRun w resolver files)).filter
      (fun s => s.rule? = some block.2.rule.name) =
      (block.2.stepOnRun? block.1 (wholeRun w resolver files)).toList :=
    filter_filterMap_of_nodup hnodup (fun b _ s hs => Registered.stepOnRun?_rule hs) hblock
  rw [course, List.filter_append, hrun]
  cases hcheck : block.2.rule.check with
  | perFile ask =>
    have hany : (blocks.any fun b => b.2.rule.isPerFile) = true :=
      List.any_eq_true.mpr ⟨block, hblock, by simp [Rule.isPerFile, hcheck]⟩
    have hfiles := flatMap_stepAt? w resolver hcheck [] files
    simp only [List.length_nil, List.nil_append] at hfiles
    simp only [hany, if_true, List.filter_flatMap, stepsOn_filter hnodup hblock, hfiles,
      Registered.stepOnRun?, Registered.ownSteps, hcheck]
    exact List.append_nil _
  | projectWide ask =>
    -- a rule for the whole run takes no step at a file
    have hnone (before : List FileContext) (file : Path) :
        stepAt? w resolver block before file = none := by
      simp [stepAt?, Registered.stepOn?, hcheck]
    have hfiles : (if blocks.any fun b => b.2.rule.isPerFile then
        files.zipIdx.flatMap fun (file, i) =>
          stepsOn w resolver blocks (readable w resolver (files.take i)) file
        else []).filter (fun s => s.rule? = some block.2.rule.name) = [] := by
      split
      · simp [List.filter_flatMap, stepsOn_filter hnodup hblock, hnone]
      · rfl
    simp only [hfiles, Registered.stepOnRun?, Registered.ownSteps, hcheck]
    rfl

/-- Only the rules of the blocks take steps. -/
theorem block_of_mem_course {files : List Path} {s : Step} {name : String}
    (hs : s ∈ course w resolver files blocks) (hname : s.rule? = some name) :
    ∃ block ∈ blocks, block.2.rule.name = name := by
  rw [course, List.mem_append] at hs
  rcases hs with hs | hs
  · split at hs
    · obtain ⟨⟨file, i⟩, -, hs⟩ := List.mem_flatMap.mp hs
      simp only [stepsOn] at hs
      split at hs
      · rw [List.mem_singleton.mp hs] at hname
        cases hname
      · obtain ⟨block, hblock, hstep⟩ := List.mem_filterMap.mp hs
        rw [Registered.stepOn?_rule hstep, Option.some.injEq] at hname
        exact ⟨block, hblock, hname⟩
    · cases hs
  · obtain ⟨block, hblock, hstep⟩ := List.mem_filterMap.mp hs
    rw [Registered.stepOnRun?_rule hstep, Option.some.injEq] at hname
    exact ⟨block, hblock, hname⟩

/-- Behind an error nothing is asked of the rule that gave it. -/
theorem silent_after_error (hnodup : (blocks.map fun block => block.2.rule.name).Nodup)
    {files : List Path} {before after : List Step} {call : Call} {e : RuleError}
    (hcourse : course w resolver files blocks = before ++ .asked call (.error e) :: after) :
    ∀ s ∈ after, s.rule? ≠ some call.rule := by
  have hmem : .asked call (.error e) ∈ course w resolver files blocks := by
    rw [hcourse]
    exact List.mem_append_right before (List.mem_cons_self ..)
  obtain ⟨block, hblock, hname⟩ := block_of_mem_course hmem rfl
  have hown := course_filter w resolver hnodup hblock files
  rw [hcourse, hname, List.filter_append, List.filter_cons_of_pos (by simp [Step.rule?])] at hown
  intro s hs hrule
  have hrest := block.2.ownSteps_end hown.symm
  rw [List.filter_eq_nil_iff] at hrest
  exact hrest s hs (by simpa using hrule)

end Run

end SourceAudit
