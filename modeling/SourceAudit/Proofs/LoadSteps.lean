/-
  SourceAudit/Proofs/LoadSteps.lean
  =================================
  **What a load comes upon.**

  A load comes upon exceptions and faults in a fixed order, the settings first, then the blocks
  under `rules`, then those at the top level (`ConfigDraft.steps`).  The faults among these
  steps are the faults of the draft (`ConfigDraft.faults_steps`), and the first one ends the
  load.  On the way there nothing is told but the exceptions without effect, each by one
  warning — `ConfigDraft.events_check`.  Without a fault the steps are the exceptions of the
  configuration that the load ends with — `ConfigDraft.Becomes.steps`.
-/
import SourceAudit.Proofs.Validation
import Mathlib.Data.List.TakeWhile

namespace SourceAudit

/-! ### What a check tells -/

namespace Checked

variable {α β : Type}

/-- What a check logs, also when it fails. -/
def events (x : Checked α) : List Event := x.run.events

theorem events_bind (x : Checked α) (f : α → Checked β) :
    (x >>= f).events = x.events ++
      match x.outcome with
      | .ok a => (f a).events
      | .error _ => [] := by
  change (x.run >>= fun r => ExceptT.bindCont f r).events = _
  change x.run.events ++ (ExceptT.bindCont f x.run.value : Logged (Except ConfigError β)).events = _
  rw [outcome, events]
  cases x.run.value <;> rfl

end Checked

/-- What a load comes upon: an exception at a position of a rule, or a fault. -/
inductive LoadStep where
  | entry (rule : String) (index : Nat) (e : ExceptionEntry)
  | fault (e : ConfigError)
deriving Repr

namespace LoadStep

def isEntry : LoadStep → Bool
  | .entry _ _ _ => true
  | .fault _ => false

def fault? : LoadStep → Option ConfigError
  | .entry _ _ _ => none
  | .fault e => some e

/-- The warning about an exception that has no effect. -/
def idleWarning (rule : String) (index : Nat) (e : ExceptionEntry) : Event :=
  ⟨.warn, s!"rules.{rule}.exceptions[{index}] ({e.pattern.text}) " ++
    "sets no threshold and has no effect"⟩

def warning? : LoadStep → Option Event
  | .entry rule index e => if e.hasEffect then none else some (idleWarning rule index e)
  | .fault _ => none

/-- What is told on the way to the first fault. -/
def told (steps : List LoadStep) : List Event :=
  (steps.takeWhile isEntry).filterMap warning?

theorem told_entry (rule : String) (index : Nat) (e : ExceptionEntry) :
    told [.entry rule index e] = if e.hasEffect then [] else [idleWarning rule index e] := by
  change (warning? (.entry rule index e)).toList = _
  rw [warning?]
  split <;> rfl

theorem told_append (first more : List LoadStep) : told (first ++ more) =
    told first ++ if first.filterMap fault? = [] then told more else [] := by
  induction first with
  | nil => rfl
  | cons f rest ih =>
    cases f with
    | fault e => rfl
    | entry rule index e =>
      have hfaults : (entry rule index e :: rest).filterMap fault? = rest.filterMap fault? := rfl
      have hcons (steps : List LoadStep) : told (entry rule index e :: steps) =
          (warning? (entry rule index e)).toList ++ told steps := by
        rw [told, List.takeWhile_cons_of_pos rfl, List.filterMap_cons]
        cases warning? (entry rule index e) <;> rfl
      rw [List.cons_append, hcons, hcons, ih, hfaults, List.append_assoc]

/-- Without a fault all is told. -/
theorem told_of_no_fault {steps : List LoadStep} (hnone : steps.filterMap fault? = []) :
    told steps = steps.filterMap warning? := by
  have hall : steps.takeWhile isEntry = steps := by
    rw [List.takeWhile_eq_self_iff]
    intro f hf
    have hfault := List.filterMap_eq_nil_iff.mp hnone f hf
    cases f with
    | entry rule index e => rfl
    | fault e => cases hfault
  rw [told, hall]

theorem told_faults (faults : List ConfigError) : told (faults.map fault) = [] := by
  cases faults <;> rfl

theorem filterMap_faults (faults : List ConfigError) :
    (faults.map fault).filterMap fault? = faults := by
  rw [List.filterMap_map]
  exact List.filterMap_some

end LoadStep

open Checked (Follows)

/-- Checks one after the other: the second one tells nothing when the first one fails. -/
theorem Checked.events_bind_told {α β : Type} {x : Checked α} {f : α → Checked β}
    {first more : List LoadStep} {P : α → Prop}
    (hfollows : Follows x (first.filterMap LoadStep.fault?) P) (hx : x.events = LoadStep.told first)
    (hf : ∀ a, P a → (f a).events = LoadStep.told more) :
    (x >>= f).events = LoadStep.told (first ++ more) := by
  rw [events_bind, hx, LoadStep.told_append]
  cases hfaults : first.filterMap LoadStep.fault? with
  | nil =>
    rw [hfaults] at hfollows
    obtain ⟨a, ha, hP⟩ := hfollows
    rw [ha, if_pos rfl, ← hf a hP]
  | cons e rest =>
    rw [hfaults] at hfollows
    change x.outcome = .error e at hfollows
    rw [hfollows, if_neg (List.cons_ne_nil e rest)]

/-- Building the result tells nothing more. -/
theorem Checked.events_map {α β : Type} (x : Checked α) (g : α → β) :
    (x >>= fun a => Pure.pure (g a)).events = x.events := by
  rw [events_bind]
  cases x.outcome <;> exact List.append_nil _

/-! ### What a draft holds -/

/-- An exception of a rule, with its position. -/
def exceptionStep (rule : String) (e : ExceptionDraft × Nat) : LoadStep :=
  match e.1.file with
  | none => .fault (.exceptionWithoutFile rule e.2)
  | some file =>
    match FilePattern.read file with
    | .ok pattern => .entry rule e.2 ⟨pattern, e.1.thresholds, e.1.metrics, e.1.reason⟩
    | .error reason => .fault (.invalidPattern s!"rules.{rule}.exceptions[{e.2}].file" reason)

def blockSteps (name : String) (r : RuleDraft) : List LoadStep :=
  (levelFaults s!"rules.{name}.log_level" r.level).map .fault ++
    r.exceptions.zipIdx.map (exceptionStep name)

def topLevelSteps (nested : List String) (entry : String × Datum) : List LoadStep :=
  (shapeFaults entry.1 entry.2).map .fault ++
    ((if entry.1 ∈ nested then [.fault (.duplicateRule entry.1)] else []) ++
      (topLevelDraft? entry.2).elim [] (blockSteps entry.1))

/-- Exceptions and faults in the order in which a load comes upon them: the settings, the blocks
    under `rules` and then those at the top level. -/
def ConfigDraft.steps (c : ConfigDraft) : List LoadStep :=
  (levelFaults "log_level" c.level).map .fault ++
    ((c.exclude.zipIdx.filterMap excludeFault).map .fault ++
      (c.rules.flatMap (fun r => blockSteps r.1 r.2) ++
        c.topLevel.flatMap (topLevelSteps (c.rules.map Prod.fst))))

/-! ### The faults among the steps -/

theorem fault?_exceptionStep (rule : String) (e : ExceptionDraft × Nat) :
    (exceptionStep rule e).fault? = exceptionFault rule e := by
  rw [exceptionStep, exceptionFault]
  cases e.1.file with
  | none => rfl
  | some file =>
    dsimp only
    cases FilePattern.read file <;> rfl

theorem faults_exceptions (rule : String) (exceptions : List (ExceptionDraft × Nat)) :
    (exceptions.map (exceptionStep rule)).filterMap LoadStep.fault? =
      exceptions.filterMap (exceptionFault rule) := by
  rw [List.filterMap_map]
  exact List.filterMap_congr fun e _ => fault?_exceptionStep rule e

theorem faults_block (name : String) (r : RuleDraft) :
    (blockSteps name r).filterMap LoadStep.fault? = blockFaults name r := by
  rw [blockSteps, List.filterMap_append, LoadStep.filterMap_faults, faults_exceptions,
    blockFaults]

theorem faults_topLevel (nested : List String) (entry : String × Datum) :
    (topLevelSteps nested entry).filterMap LoadStep.fault? = topLevelFaults nested entry := by
  rw [topLevelSteps, topLevelFaults, List.filterMap_append, List.filterMap_append,
    LoadStep.filterMap_faults]
  congr 2
  · split <;> rfl
  · cases topLevelDraft? entry.2 with
    | none => rfl
    | some r => exact faults_block entry.1 r

theorem faults_blocks (blocks : List (String × RuleDraft)) :
    (blocks.flatMap fun r => blockSteps r.1 r.2).filterMap LoadStep.fault? =
      blocks.flatMap fun r => blockFaults r.1 r.2 := by
  rw [List.filterMap_flatMap]
  exact List.flatMap_congr fun r _ => faults_block r.1 r.2

theorem ConfigDraft.faults_steps (c : ConfigDraft) :
    c.steps.filterMap LoadStep.fault? = c.faults := by
  have htop : (c.topLevel.flatMap (topLevelSteps (c.rules.map Prod.fst))).filterMap
      LoadStep.fault? = c.topLevel.flatMap (topLevelFaults (c.rules.map Prod.fst)) := by
    rw [List.filterMap_flatMap]
    exact List.flatMap_congr fun entry _ => faults_topLevel _ entry
  rw [steps, List.filterMap_append, List.filterMap_append, List.filterMap_append,
    LoadStep.filterMap_faults, LoadStep.filterMap_faults, faults_blocks, htop, faults]

/-! ### What a load tells -/

theorem events_checkLevel (place : String) (level : Option String) :
    (checkLevel place level).events = [] := by
  cases level with
  | none => rfl
  | some value =>
    rw [checkLevel]
    cases Level.ofName? value <;> rfl

theorem events_checkExclude (i : Nat) (patterns : List String) :
    (checkExclude i patterns).events = [] := by
  induction patterns generalizing i with
  | nil => rfl
  | cons pattern rest ih =>
    rw [checkExclude]
    cases Glob.read pattern with
    | ok glob => exact ih (i + 1)
    | error reason => rfl

theorem events_checkException (rule : String) (i : Nat) (e : ExceptionDraft) :
    (checkException rule i e).events = LoadStep.told [exceptionStep rule (e, i)] := by
  rw [checkException, exceptionStep]
  cases e.file with
  | none => rfl
  | some file =>
    dsimp only
    cases FilePattern.read file with
    | error reason => rfl
    | ok pattern =>
      dsimp only
      rw [LoadStep.told_entry]
      cases (⟨pattern, e.thresholds, e.metrics, e.reason⟩ : ExceptionEntry).hasEffect <;> rfl

theorem events_checkExceptions (rule : String) (i : Nat) (exceptions : List ExceptionDraft) :
    (checkExceptions rule i exceptions).events =
      LoadStep.told ((exceptions.zipIdx i).map (exceptionStep rule)) := by
  induction exceptions generalizing i with
  | nil => rfl
  | cons e rest ih =>
    rw [checkExceptions, List.zipIdx_cons, List.map_cons]
    have hfaults : [exceptionStep rule (e, i)].filterMap LoadStep.fault? =
        (exceptionFault rule (e, i)).toList := by
      rw [← fault?_exceptionStep, List.filterMap_cons]
      cases (exceptionStep rule (e, i)).fault? <;> rfl
    have hfollows := checkException_follows rule i e
    rw [← hfaults] at hfollows
    refine Checked.events_bind_told hfollows (events_checkException rule i e) fun entry _ => ?_
    rw [Checked.events_map]
    exact ih (i + 1)

theorem events_checkRule (name : String) (r : RuleDraft) :
    (checkRule name r).events = LoadStep.told (blockSteps name r) := by
  have hfollows := checkLevel_follows s!"rules.{name}.log_level" r.level
  rw [← LoadStep.filterMap_faults (levelFaults _ _)] at hfollows
  refine Checked.events_bind_told hfollows ?_ fun level _ => ?_
  · rw [events_checkLevel, LoadStep.told_faults]
  · rw [Checked.events_map]
    exact events_checkExceptions name 0 r.exceptions

theorem events_checkRules (blocks : List (String × RuleDraft)) :
    (checkRules blocks).events =
      LoadStep.told (blocks.flatMap fun r => blockSteps r.1 r.2) := by
  induction blocks with
  | nil => rfl
  | cons block rest ih =>
    rw [List.flatMap_cons]
    have hfollows := checkRule_follows block.1 block.2
    rw [← faults_block] at hfollows
    refine Checked.events_bind_told hfollows (events_checkRule block.1 block.2) fun rule _ => ?_
    rw [Checked.events_map]
    exact ih

theorem events_topLevelRule (key : String) (d : Datum) : (topLevelRule key d).events = [] := by
  cases d with
  | table entries =>
    rw [topLevelRule]
    cases RuleDraft.ofDatum .refused (.table entries) <;> rfl
  | null | bool | number | text | list => rfl

/-- As for the faults, what was added before is no duplicate of the keys that come. -/
theorem events_checkTopLevel (nested : List String) (rules : List (String × RuleConfig))
    (entries : List (String × Datum)) (hnodup : (entries.map Prod.fst).Nodup)
    (hknown : ∀ key ∈ entries.map Prod.fst, (rules.lookup key).isSome ↔ key ∈ nested) :
    (checkTopLevel rules entries).events =
      LoadStep.told (entries.flatMap (topLevelSteps nested)) := by
  induction entries generalizing rules with
  | nil => rfl
  | cons entry rest ih =>
    obtain ⟨key, d⟩ := entry
    obtain ⟨hfresh, hnodup⟩ := List.nodup_cons.mp hnodup
    obtain ⟨hkey, hknown⟩ := List.forall_mem_cons.mp hknown
    rw [checkTopLevel, List.flatMap_cons, topLevelSteps, List.append_assoc]
    have hshape := topLevelRule_follows key d
    rw [← LoadStep.filterMap_faults (shapeFaults key d)] at hshape
    refine Checked.events_bind_told hshape ?_ fun r hr => ?_
    · rw [events_topLevelRule, LoadStep.told_faults]
    · rw [List.append_assoc, hr]
      by_cases hdouble : key ∈ nested
      · rw [if_pos hdouble, if_pos (hkey.mpr hdouble)]
        rfl
      · rw [if_neg hdouble, if_neg fun h => hdouble (hkey.mp h), List.nil_append]
        have hrule := checkRule_follows key r
        rw [← faults_block] at hrule
        refine Checked.events_bind_told hrule (events_checkRule key r) fun rule _ => ?_
        refine ih (rules ++ [(key, rule)]) hnodup fun other hother => ?_
        have hne : other ≠ key := fun h => hfresh (h ▸ hother)
        rw [List.lookup_append, Option.isSome_or]
        simp [List.lookup_cons, beq_false_of_ne hne, hknown other hother]

theorem ConfigDraft.events_check (c : ConfigDraft) (hnodup : (c.topLevel.map Prod.fst).Nodup) :
    c.check.events = LoadStep.told c.steps := by
  have hlevel := checkLevel_follows "log_level" c.level
  have hexclude := checkExclude_follows 0 c.exclude
  have hblocks := checkRules_follows c.rules
  rw [← LoadStep.filterMap_faults (levelFaults _ _)] at hlevel
  rw [← LoadStep.filterMap_faults (List.filterMap _ _)] at hexclude
  rw [← faults_blocks] at hblocks
  refine Checked.events_bind_told hlevel ?_ fun level _ => ?_
  · rw [events_checkLevel, LoadStep.told_faults]
  refine Checked.events_bind_told hexclude ?_ fun _ _ => ?_
  · rw [events_checkExclude, LoadStep.told_faults]
  refine Checked.events_bind_told hblocks (events_checkRules c.rules) fun nested hnested => ?_
  rw [Checked.events_map]
  refine events_checkTopLevel _ nested c.topLevel hnodup fun key _ => ?_
  have hnames : c.rules.map Prod.fst = nested.map Prod.fst := by
    rw [← List.forall₂_eq_eq_eq, List.forall₂_map_left_iff, List.forall₂_map_right_iff]
    exact hnested.imp fun _ _ h => h.1
  rw [hnames, Entries.lookup_isSome_iff_mem]

/-! ### Loads without a fault -/

/-- The exceptions of a rule, in order. -/
def exceptionSteps (name : String) (rule : RuleConfig) : List LoadStep :=
  rule.exceptions.zipIdx.map fun e => .entry name e.2 e.1

theorem ExceptionDraft.Becomes.step {e : ExceptionDraft} {entry : ExceptionEntry}
    (h : e.Becomes entry) (rule : String) (i : Nat) :
    exceptionStep rule (e, i) = .entry rule i entry := by
  obtain ⟨⟨file, hfile, hread⟩, hthresholds, hmetrics, hreason⟩ := h
  simp only [exceptionStep, hfile, hread, ← hthresholds, ← hmetrics, ← hreason]

theorem RuleDraft.Becomes.steps {r : RuleDraft} {rule : RuleConfig} (h : r.Becomes rule)
    {name : String} (hsound : blockFaults name r = []) :
    blockSteps name r = exceptionSteps name rule := by
  have hexceptions {drafts : List ExceptionDraft} {entries : List ExceptionEntry}
      (hall : List.Forall₂ ExceptionDraft.Becomes drafts entries) (i : Nat) :
      (drafts.zipIdx i).map (exceptionStep name) =
        (entries.zipIdx i).map fun e => .entry name e.2 e.1 := by
    induction hall generalizing i with
    | nil => rfl
    | cons he _ ih => rw [List.zipIdx_cons, List.zipIdx_cons, List.map_cons, List.map_cons,
        he.step, ih]
  obtain ⟨hlevel, -⟩ := List.append_eq_nil_iff.mp hsound
  rw [blockSteps, hlevel, List.map_nil, List.nil_append]
  exact hexceptions h.exceptions 0

theorem EntryBecomes.steps {entry : String × Datum} {rule : String × RuleConfig}
    (h : EntryBecomes entry rule) {nested : List String}
    (hsound : topLevelFaults nested entry = []) :
    topLevelSteps nested entry = exceptionSteps rule.1 rule.2 := by
  obtain ⟨hname, r, hr, hrule⟩ := h
  rw [topLevelFaults, List.append_eq_nil_iff, List.append_eq_nil_iff, hr] at hsound
  obtain ⟨hshape, hdouble, hblock⟩ := hsound
  have hfresh : entry.1 ∉ nested := by
    intro hnested
    rw [if_pos hnested] at hdouble
    cases hdouble
  rw [topLevelSteps, hshape, if_neg hfresh, hr, ← hname]
  exact hrule.steps hblock

/-- Lists that go together item by item, when what is made of each two items is the same. -/
theorem flatMap_of_forall₂ {α β γ : Type} {R : α → β → Prop} {f : α → List γ} {g : β → List γ}
    {as : List α} {bs : List β} (hall : List.Forall₂ R as bs)
    (hsame : ∀ a ∈ as, ∀ b, R a b → f a = g b) : as.flatMap f = bs.flatMap g := by
  induction hall with
  | nil => rfl
  | cons hab _ ih =>
    obtain ⟨hfirst, hrest⟩ := List.forall_mem_cons.mp hsame
    rw [List.flatMap_cons, List.flatMap_cons, hfirst _ hab, ih hrest]

/-- Where there is no fault, a load comes upon the exceptions of the configuration. -/
theorem ConfigDraft.Becomes.steps {c : ConfigDraft} {config : Config} (h : c.Becomes config)
    (hsound : c.faults = []) :
    c.steps = config.rules.flatMap fun r => exceptionSteps r.1 r.2 := by
  obtain ⟨nested, flat, hrules, hnested, hflat⟩ := h.rules
  simp only [faults, List.append_eq_nil_iff, List.flatMap_eq_nil_iff] at hsound
  obtain ⟨hlevel, hexclude, hblocks, htop⟩ := hsound
  have hunder := flatMap_of_forall₂ (f := fun r => blockSteps r.1 r.2)
    (g := fun r => exceptionSteps r.1 r.2) hnested fun block hblock rule hbecomes => by
      obtain ⟨hname, hrule⟩ := hbecomes
      rw [← hname]
      exact hrule.steps (hblocks block hblock)
  have hbeside := flatMap_of_forall₂ (g := fun r => exceptionSteps r.1 r.2) hflat
    fun entry hentry rule hbecomes => hbecomes.steps (htop entry hentry)
  rw [ConfigDraft.steps, hlevel, hexclude, hunder, hbeside, hrules, List.flatMap_append]
  rfl

end SourceAudit
