/-
  SourceAudit/Proofs/Validation.lean
  ==================================
  **What makes a draft a configuration.**

  The faults of a draft are listed in the order of its parts: the global level, the globs
  for files left out, the blocks under `rules`, and then the keys of the top level one by
  one.  The list is written down without any check being run (`ConfigDraft.faults`), and
  every check is shown to fail with the first fault of its part, or else to give what its
  part says (`Checked.Follows`).  The parts are put together by `Checked.Follows.bind`.

  For a draft read from a document (`ConfigDraft.outcome_check`):

    * there is a configuration exactly when the draft is acceptable;
    * it then says what the draft says, nested blocks before those at the top level;
    * otherwise the error is the first fault.
-/
import SourceAudit.Config.Validation
import SourceAudit.Proofs.Records
import Mathlib.Data.List.Forall2

namespace SourceAudit

namespace Checked

variable {α β : Type}

/-- What a check comes to, whatever it logs. -/
def outcome (x : Checked α) : Except ConfigError α := x.run.value

theorem outcome_bind (x : Checked α) (f : α → Checked β) :
    (x >>= f).outcome =
      match x.outcome with
      | .ok a => (f a).outcome
      | .error e => .error e := by
  change (ExceptT.bindCont f (x.run.value) : Logged (Except ConfigError β)).value = _
  rw [outcome]
  cases x.run.value <;> rfl

/-- A check fails with the first of the faults, and without any it gives something with the
    property. -/
def Follows (x : Checked α) (faults : List ConfigError) (P : α → Prop) : Prop :=
  match faults with
  | [] => ∃ a, x.outcome = .ok a ∧ P a
  | e :: _ => x.outcome = .error e

theorem Follows.pure {P : α → Prop} {a : α} (ha : P a) : Follows (Pure.pure a) [] P := ⟨a, rfl, ha⟩

theorem Follows.fail {P : α → Prop} (e : ConfigError) (more : List ConfigError) :
    Follows (Checked.fail e) (e :: more) P := rfl

/-- Checks one after the other: their faults one list after the other. -/
theorem Follows.bind {P : α → Prop} {Q : β → Prop} {x : Checked α} {f : α → Checked β}
    {first more : List ConfigError} (hx : Follows x first P)
    (hf : ∀ a, P a → Follows (f a) more Q) : Follows (x >>= f) (first ++ more) Q := by
  cases first with
  | nil =>
    obtain ⟨a, ha, hP⟩ := hx
    have hfollows := hf a hP
    unfold Follows at hfollows ⊢
    rw [outcome_bind, ha]
    exact hfollows
  | cons e rest =>
    change x.outcome = .error e at hx
    change (x >>= f).outcome = .error e
    rw [outcome_bind, hx]

/-- The last check of a part may be followed by building the result. -/
theorem Follows.map {P : α → Prop} {Q : β → Prop} {x : Checked α} {g : α → β}
    {faults : List ConfigError} (hx : Follows x faults P) (hg : ∀ a, P a → Q (g a)) :
    Follows (x >>= fun a => Pure.pure (g a)) faults Q := by
  have hbound := hx.bind (f := fun a => Pure.pure (g a)) fun a ha => Follows.pure (hg a ha)
  rwa [List.append_nil] at hbound

theorem Follows.weaken {P Q : α → Prop} {x : Checked α} {faults : List ConfigError}
    (hx : Follows x faults P) (hPQ : ∀ a, P a → Q a) : Follows x faults Q := by
  cases faults with
  | nil =>
    obtain ⟨a, ha, hP⟩ := hx
    exact ⟨a, ha, hPQ a hP⟩
  | cons e rest => exact hx

theorem Follows.ok_iff {P : α → Prop} {x : Checked α} {faults : List ConfigError}
    (hx : Follows x faults P) : (∃ a, x.outcome = .ok a) ↔ faults = [] := by
  cases faults with
  | nil =>
    obtain ⟨a, ha, -⟩ := hx
    exact ⟨fun _ => rfl, fun _ => ⟨a, ha⟩⟩
  | cons e rest =>
    change x.outcome = .error e at hx
    simp [hx]

theorem Follows.of_ok {P : α → Prop} {x : Checked α} {faults : List ConfigError}
    (hx : Follows x faults P) {a : α} (ha : x.outcome = .ok a) : P a := by
  cases faults with
  | nil =>
    obtain ⟨b, hb, hP⟩ := hx
    obtain rfl : b = a := Except.ok.inj (hb.symm.trans ha)
    exact hP
  | cons e rest =>
    change x.outcome = .error e at hx
    rw [hx] at ha
    cases ha

theorem Follows.error_iff {P : α → Prop} {x : Checked α} {faults : List ConfigError}
    (hx : Follows x faults P) (e : ConfigError) :
    x.outcome = .error e ↔ faults.head? = some e := by
  cases faults with
  | nil =>
    obtain ⟨a, ha, -⟩ := hx
    simp [ha]
  | cons first rest =>
    change x.outcome = .error first at hx
    simp [hx]

end Checked

/-! ### Faults -/

def levelFaults (place : String) : Option String → List ConfigError
  | none => []
  | some value => if value ∈ ["error", "warning", "all"] then [] else [.unknownLevel place value]

/-- A glob for files that are left out, with its position. -/
def excludeFault (p : String × Nat) : Option ConfigError :=
  match Glob.read p.1 with
  | .ok _ => none
  | .error reason =>
    some (.invalidPattern s!"analyzer.exclude[{p.2}]" (.invalidGlob p.1 reason))

def exceptionFault (rule : String) (e : ExceptionDraft × Nat) : Option ConfigError :=
  match e.1.file with
  | none => some (.exceptionWithoutFile rule e.2)
  | some file =>
    match FilePattern.read file with
    | .ok _ => none
    | .error reason =>
      some (.invalidPattern s!"rules.{rule}.exceptions[{e.2}].file" reason)

def blockFaults (name : String) (r : RuleDraft) : List ConfigError :=
  levelFaults s!"rules.{name}.log_level" r.level ++
    r.exceptions.zipIdx.filterMap (exceptionFault name)

/-- The block that a value of the top level is, if it is one. -/
def topLevelDraft? : Datum → Option RuleDraft
  | .table entries => (RuleDraft.ofDatum .refused (.table entries)).toOption
  | _ => none

def shapeFaults (key : String) : Datum → List ConfigError
  | .table entries =>
    match RuleDraft.ofDatum .refused (.table entries) with
    | .ok _ => []
    | .error reason => [.misshapen key reason]
  | _ => [.unknownKey key]

/-- The faults of a key of the top level: its shape, a block of the same name under `rules`,
    and then the faults of the block itself. -/
def topLevelFaults (nested : List String) (entry : String × Datum) : List ConfigError :=
  shapeFaults entry.1 entry.2 ++
    ((if entry.1 ∈ nested then [.duplicateRule entry.1] else []) ++
      (topLevelDraft? entry.2).elim [] (blockFaults entry.1))

def ConfigDraft.faults (c : ConfigDraft) : List ConfigError :=
  levelFaults "log_level" c.level ++
    (c.exclude.zipIdx.filterMap excludeFault ++
      (c.rules.flatMap (fun r => blockFaults r.1 r.2) ++
        c.topLevel.flatMap (topLevelFaults (c.rules.map Prod.fst))))

/-! ### Drafts without a fault -/

def LevelKnown (level : Option String) : Prop :=
  ∀ value, level = some value → value ∈ ["error", "warning", "all"]

structure RuleDraft.Acceptable (r : RuleDraft) : Prop where
  level : LevelKnown r.level
  exceptions : ∀ e ∈ r.exceptions, ∃ file pattern,
    e.file = some file ∧ FilePattern.read file = .ok pattern

structure ConfigDraft.Acceptable (c : ConfigDraft) : Prop where
  level : LevelKnown c.level
  exclude : ∀ pattern ∈ c.exclude, ∃ glob, Glob.read pattern = .ok glob
  blocks : ∀ r ∈ c.rules, r.2.Acceptable
  topLevel : ∀ entry ∈ c.topLevel, ∃ entries r, entry.2 = .table entries ∧
    RuleDraft.ofDatum .refused (.table entries) = .ok r ∧ r.Acceptable
  distinct : ∀ entry ∈ c.topLevel, entry.1 ∉ c.rules.map Prod.fst

theorem levelFaults_eq_nil_iff {place : String} {level : Option String} :
    levelFaults place level = [] ↔ LevelKnown level := by
  cases level with
  | none => simp [levelFaults, LevelKnown]
  | some value =>
    by_cases hknown : value ∈ ["error", "warning", "all"]
    · rw [levelFaults, if_pos hknown]
      exact iff_of_true rfl fun other hother => Option.some.inj hother ▸ hknown
    · rw [levelFaults, if_neg hknown]
      exact iff_of_false (by simp) fun h => hknown (h value rfl)

theorem excludeFault_eq_none_iff {p : String × Nat} :
    excludeFault p = none ↔ ∃ glob, Glob.read p.1 = .ok glob := by
  rw [excludeFault]
  cases Glob.read p.1 <;> simp

theorem exceptionFault_eq_none_iff {rule : String} {e : ExceptionDraft × Nat} :
    exceptionFault rule e = none ↔ ∃ file pattern,
      e.1.file = some file ∧ FilePattern.read file = .ok pattern := by
  rw [exceptionFault]
  cases e.1.file with
  | none => simp
  | some file => cases hread : FilePattern.read file <;> simp [hread]

/-- Faults that depend on an item and its position only for their text. -/
theorem filterMap_zipIdx_eq_nil_iff {α : Type} {f : α × Nat → Option ConfigError}
    {P : α → Prop} (hf : ∀ a, f a = none ↔ P a.1) (items : List α) :
    items.zipIdx.filterMap f = [] ↔ ∀ a ∈ items, P a := by
  simp only [List.filterMap_eq_nil_iff, hf]
  constructor
  · intro h a ha
    obtain ⟨i, hi⟩ := List.mem_iff_getElem?.mp ha
    exact h (a, i) (List.mem_zipIdx_iff_getElem?.mpr hi)
  · intro h a ha
    exact h a.1 (List.fst_mem_of_mem_zipIdx ha)

theorem excludeFaults_eq_nil_iff {patterns : List String} :
    patterns.zipIdx.filterMap excludeFault = [] ↔
      ∀ pattern ∈ patterns, ∃ glob, Glob.read pattern = .ok glob :=
  filterMap_zipIdx_eq_nil_iff (fun _ => excludeFault_eq_none_iff) patterns

theorem exceptionFaults_eq_nil_iff {rule : String} {exceptions : List ExceptionDraft} :
    exceptions.zipIdx.filterMap (exceptionFault rule) = [] ↔ ∀ e ∈ exceptions,
      ∃ file pattern, e.file = some file ∧ FilePattern.read file = .ok pattern :=
  filterMap_zipIdx_eq_nil_iff (fun _ => exceptionFault_eq_none_iff) exceptions

theorem blockFaults_eq_nil_iff {name : String} {r : RuleDraft} :
    blockFaults name r = [] ↔ r.Acceptable := by
  rw [blockFaults, List.append_eq_nil_iff, levelFaults_eq_nil_iff,
    exceptionFaults_eq_nil_iff]
  exact ⟨fun h => ⟨h.1, h.2⟩, fun h => ⟨h.level, h.exceptions⟩⟩

theorem topLevelFaults_eq_nil_iff {nested : List String} {entry : String × Datum} :
    topLevelFaults nested entry = [] ↔ entry.1 ∉ nested ∧ ∃ entries r,
      entry.2 = .table entries ∧ RuleDraft.ofDatum .refused (.table entries) = .ok r ∧
        r.Acceptable := by
  obtain ⟨key, d⟩ := entry
  rw [topLevelFaults, List.append_eq_nil_iff, List.append_eq_nil_iff]
  cases d with
  | table entries =>
    cases hshape : RuleDraft.ofDatum .refused (.table entries) with
    | error reason => simp [shapeFaults, hshape]
    | ok r => simp [shapeFaults, topLevelDraft?, Except.toOption, hshape, blockFaults_eq_nil_iff]
  | null | bool | number | text | list => simp [shapeFaults]

theorem ConfigDraft.faults_eq_nil_iff {c : ConfigDraft} : c.faults = [] ↔ c.Acceptable := by
  simp only [faults, List.append_eq_nil_iff, levelFaults_eq_nil_iff, List.flatMap_eq_nil_iff,
    excludeFaults_eq_nil_iff, blockFaults_eq_nil_iff,
    topLevelFaults_eq_nil_iff]
  constructor
  · rintro ⟨hlevel, hexclude, hblocks, htop⟩
    exact ⟨hlevel, hexclude, hblocks, fun e he => (htop e he).2, fun e he => (htop e he).1⟩
  · intro h
    exact ⟨h.level, h.exclude, h.blocks, fun e he => ⟨h.distinct e he, h.topLevel e he⟩⟩

/-! ### What a configuration takes from a draft -/

structure ExceptionDraft.Becomes (e : ExceptionDraft) (entry : ExceptionEntry) : Prop where
  pattern : ∃ file, e.file = some file ∧ FilePattern.read file = .ok entry.pattern
  thresholds : entry.thresholds = e.thresholds
  metrics : entry.metrics = e.metrics
  reason : entry.reason = e.reason

structure RuleDraft.Becomes (r : RuleDraft) (rule : RuleConfig) : Prop where
  enabled : rule.enabled = true ↔ r.enabled = some true
  thresholds : rule.thresholds = r.thresholds
  level : rule.level.map Level.name = r.level
  exceptions : List.Forall₂ ExceptionDraft.Becomes r.exceptions rule.exceptions
  metrics : rule.metrics = r.metrics
  options : rule.options = r.options

/-- A block under `rules` and the rule made of it. -/
def BlockBecomes (block : String × RuleDraft) (rule : String × RuleConfig) : Prop :=
  block.1 = rule.1 ∧ block.2.Becomes rule.2

/-- A key of the top level and the rule made of its value. -/
def EntryBecomes (entry : String × Datum) (rule : String × RuleConfig) : Prop :=
  entry.1 = rule.1 ∧ ∃ r, topLevelDraft? entry.2 = some r ∧ r.Becomes rule.2

structure ConfigDraft.Becomes (c : ConfigDraft) (config : Config) : Prop where
  level : config.level.map Level.name = c.level
  maxErrors : config.maxErrors = c.maxErrors
  exclude : config.exclude = c.exclude
  respectGitignore : config.respectGitignore = c.respectGitignore.getD true
  sourceDirectory : config.sourceDirectory = none
  /-- The blocks under `rules` in their order, and then those at the top level in theirs. -/
  rules : ∃ nested flat, config.rules = nested ++ flat ∧
    List.Forall₂ BlockBecomes c.rules nested ∧ List.Forall₂ EntryBecomes c.topLevel flat

/-! ### Every check follows its faults -/

open Checked (Follows)

theorem Level.ofName?_eq_some_iff {value : String} {level : Level} :
    Level.ofName? value = some level ↔ level.name = value := by
  constructor
  · intro h
    unfold Level.ofName? at h
    split at h <;> cases h <;> rfl
  · rintro rfl
    cases level <;> rfl

theorem Level.name_mem (level : Level) : level.name ∈ ["error", "warning", "all"] := by
  cases level <;> decide

theorem Level.exists_name {value : String} (hvalue : value ∈ ["error", "warning", "all"]) :
    ∃ level : Level, level.name = value := by
  simp only [List.mem_cons, List.not_mem_nil, or_false] at hvalue
  rcases hvalue with rfl | rfl | rfl
  · exact ⟨.error, rfl⟩
  · exact ⟨.warning, rfl⟩
  · exact ⟨.all, rfl⟩

theorem checkLevel_follows (place : String) (level : Option String) :
    Follows (checkLevel place level) (levelFaults place level)
      fun known => known.map Level.name = level := by
  cases level with
  | none => exact Follows.pure rfl
  | some value =>
    rw [checkLevel, levelFaults]
    cases hlevel : Level.ofName? value with
    | some level =>
      have hname := Level.ofName?_eq_some_iff.mp hlevel
      rw [if_pos (hname ▸ level.name_mem)]
      exact Follows.pure (congrArg some hname)
    | none =>
      have hunknown : value ∉ ["error", "warning", "all"] := by
        intro hvalue
        obtain ⟨level, hname⟩ := Level.exists_name hvalue
        rw [Level.ofName?_eq_some_iff.mpr hname] at hlevel
        cases hlevel
      rw [if_neg hunknown]
      exact Follows.fail _ []

theorem checkExclude_follows (i : Nat) (patterns : List String) :
    Follows (checkExclude i patterns) ((patterns.zipIdx i).filterMap excludeFault)
      fun _ => True := by
  induction patterns generalizing i with
  | nil => exact Follows.pure trivial
  | cons pattern rest ih =>
    rw [checkExclude, List.zipIdx_cons, List.filterMap_cons, excludeFault]
    cases Glob.read pattern with
    | ok glob => exact ih (i + 1)
    | error reason => exact Follows.fail _ _

theorem checkException_follows (rule : String) (i : Nat) (e : ExceptionDraft) :
    Follows (checkException rule i e) (exceptionFault rule (e, i)).toList e.Becomes := by
  rw [checkException, exceptionFault]
  cases hfile : e.file with
  | none => exact Follows.fail _ []
  | some file =>
    dsimp only
    cases hread : FilePattern.read file with
    | error reason => exact Follows.fail _ []
    | ok pattern =>
      have hbecomes : e.Becomes ⟨pattern, e.thresholds, e.metrics, e.reason⟩ :=
        ⟨⟨file, hfile, hread⟩, rfl, rfl, rfl⟩
      dsimp only
      -- the warning of an exception without effect changes nothing
      split
      · exact ⟨_, rfl, hbecomes⟩
      · exact ⟨_, rfl, hbecomes⟩

theorem checkExceptions_follows (rule : String) (i : Nat) (exceptions : List ExceptionDraft) :
    Follows (checkExceptions rule i exceptions)
      ((exceptions.zipIdx i).filterMap (exceptionFault rule))
      (List.Forall₂ ExceptionDraft.Becomes exceptions) := by
  induction exceptions generalizing i with
  | nil => exact Follows.pure .nil
  | cons e rest ih =>
    have hfaults : ((e :: rest).zipIdx i).filterMap (exceptionFault rule) =
        (exceptionFault rule (e, i)).toList ++
          (rest.zipIdx (i + 1)).filterMap (exceptionFault rule) := by
      rw [List.zipIdx_cons, List.filterMap_cons]
      cases exceptionFault rule (e, i) <;> rfl
    rw [checkExceptions, hfaults]
    refine (checkException_follows rule i e).bind fun entry hentry => ?_
    exact (ih (i + 1)).map fun entries hentries => .cons hentry hentries

theorem checkRule_follows (name : String) (r : RuleDraft) :
    Follows (checkRule name r) (blockFaults name r) r.Becomes := by
  rw [checkRule, blockFaults]
  refine (checkLevel_follows _ r.level).bind fun level hlevel => ?_
  refine (checkExceptions_follows name 0 r.exceptions).map fun entries hentries => ?_
  refine ⟨?_, rfl, hlevel, hentries, rfl, rfl⟩
  cases r.enabled <;> simp

theorem checkRules_follows (blocks : List (String × RuleDraft)) :
    Follows (checkRules blocks) (blocks.flatMap fun r => blockFaults r.1 r.2)
      (List.Forall₂ BlockBecomes blocks) := by
  induction blocks with
  | nil => exact Follows.pure .nil
  | cons block rest ih =>
    rw [List.flatMap_cons]
    refine (checkRule_follows block.1 block.2).bind fun rule hrule => ?_
    exact ih.map fun rules hrules => .cons ⟨rfl, hrule⟩ hrules

theorem topLevelRule_follows (key : String) (d : Datum) :
    Follows (topLevelRule key d) (shapeFaults key d) fun r => topLevelDraft? d = some r := by
  cases d with
  | table entries =>
    rw [topLevelRule, shapeFaults, topLevelDraft?]
    cases RuleDraft.ofDatum .refused (.table entries) with
    | ok r => exact Follows.pure rfl
    | error reason => exact Follows.fail _ []
  | null | bool | number | text | list => exact Follows.fail _ []

/-- The keys that come all differ, so what was added before is no duplicate of them. -/
theorem checkTopLevel_follows (nested : List String) (rules : List (String × RuleConfig))
    (entries : List (String × Datum)) (hnodup : (entries.map Prod.fst).Nodup)
    (hknown : ∀ key ∈ entries.map Prod.fst, (rules.lookup key).isSome ↔ key ∈ nested) :
    Follows (checkTopLevel rules entries) (entries.flatMap (topLevelFaults nested))
      fun all => ∃ flat, all = rules ++ flat ∧ List.Forall₂ EntryBecomes entries flat := by
  induction entries generalizing rules with
  | nil => exact Follows.pure ⟨[], by simp, .nil⟩
  | cons entry rest ih =>
    obtain ⟨key, d⟩ := entry
    obtain ⟨hfresh, hnodup⟩ := List.nodup_cons.mp hnodup
    obtain ⟨hkey, hknown⟩ := List.forall_mem_cons.mp hknown
    rw [checkTopLevel, List.flatMap_cons, topLevelFaults, List.append_assoc]
    refine (topLevelRule_follows key d).bind fun r hr => ?_
    rw [List.append_assoc, hr]
    by_cases hdouble : key ∈ nested
    · rw [if_pos hdouble, if_pos (hkey.mpr hdouble)]
      exact Follows.fail _ _
    · rw [if_neg hdouble, if_neg fun h => hdouble (hkey.mp h)]
      refine (checkRule_follows key r).bind fun rule hrule => ?_
      have hadded : ∀ other ∈ rest.map Prod.fst,
          ((rules ++ [(key, rule)]).lookup other).isSome ↔ other ∈ nested := by
        intro other hother
        have hne : other ≠ key := fun h => hfresh (h ▸ hother)
        rw [List.lookup_append, Option.isSome_or]
        simp [List.lookup_cons, beq_false_of_ne hne, hknown other hother]
      have hrest := ih (rules ++ [(key, rule)]) hnodup hadded
      have hall : ∀ all, (∃ flat, all = rules ++ [(key, rule)] ++ flat ∧
          List.Forall₂ EntryBecomes rest flat) →
          ∃ flat, all = rules ++ flat ∧ List.Forall₂ EntryBecomes ((key, d) :: rest) flat := by
        rintro all ⟨flat, rfl, hflat⟩
        exact ⟨(key, rule) :: flat, by simp, .cons ⟨rfl, r, hr, hrule⟩ hflat⟩
      exact hrest.weaken hall

theorem ConfigDraft.check_follows (c : ConfigDraft) (hnodup : (c.topLevel.map Prod.fst).Nodup) :
    Follows c.check c.faults c.Becomes := by
  rw [check, faults]
  refine (checkLevel_follows _ c.level).bind fun level hlevel => ?_
  refine (checkExclude_follows 0 c.exclude).bind fun _ _ => ?_
  refine (checkRules_follows c.rules).bind fun nested hnested => ?_
  have hnames : c.rules.map Prod.fst = nested.map Prod.fst := by
    rw [← List.forall₂_eq_eq_eq, List.forall₂_map_left_iff, List.forall₂_map_right_iff]
    exact hnested.imp fun _ _ h => h.1
  have hknown : ∀ key ∈ c.topLevel.map Prod.fst,
      (nested.lookup key).isSome ↔ key ∈ c.rules.map Prod.fst := by
    intro key _
    rw [hnames, Entries.lookup_isSome_iff_mem]
  refine (checkTopLevel_follows _ nested c.topLevel hnodup hknown).map ?_
  rintro rules ⟨flat, rfl, hflat⟩
  exact ⟨hlevel, rfl, rfl, rfl, rfl, nested, flat, rfl, hnested, hflat⟩

/-! ### Drafts from documents -/

/-- Reading a document puts a key of the top level under its name, so no name stands twice. -/
theorem ConfigDraft.topLevel_nodup {excess : Shape.Excess} {d : Datum} {c : ConfigDraft}
    (hread : ofDatum excess d = .ok c) : (c.topLevel.map Prod.fst).Nodup := by
  have hstep (c : ConfigDraft) (e : String × Datum) (c' : ConfigDraft)
      (hc : (c.topLevel.map Prod.fst).Nodup) (hfield : field excess c e = .ok c') :
      (c'.topLevel.map Prod.fst).Nodup := by
    unfold field at hfield
    split at hfield
    case h_6 =>
      obtain rfl := Except.ok.inj hfield
      exact Entries.names_put_nodup hc
    -- every setting leaves the other keys alone
    all_goals exact of_bind_pure (P := fun c => (c.topLevel.map Prod.fst).Nodup) hfield fun _ => hc
  unfold ofDatum at hread
  split at hread
  · split at hread
    · cases hread
    · exact Shape.record_keeps (P := fun c => (c.topLevel.map Prod.fst).Nodup) hstep .nil hread
  · cases hread

/-- **When a draft becomes a configuration, and what is said when it does not.**  A draft that
    was read from a document becomes a configuration exactly when it is acceptable; the
    configuration says what the draft says; and an error is the first fault of the draft. -/
theorem ConfigDraft.outcome_check {excess : Shape.Excess} {d : Datum} {c : ConfigDraft}
    (hread : ofDatum excess d = .ok c) :
    ((∃ config, c.check.outcome = .ok config) ↔ c.Acceptable) ∧
      (∀ config, c.check.outcome = .ok config → c.Becomes config) ∧
      ∀ e, c.check.outcome = .error e ↔ c.faults.head? = some e := by
  have hfollows := c.check_follows (topLevel_nodup hread)
  refine ⟨?_, fun config hconfig => hfollows.of_ok hconfig, hfollows.error_iff⟩
  rw [hfollows.ok_iff, faults_eq_nil_iff]

/-- A block under `rules`, and two at the top level: one that can be used and one whose second
    exception has no pattern. -/
def spoiledDocument : Datum :=
  .table
    [("size", .table [("enabled", .bool true), ("exceptions", .list
      [.table [("file", .text "a/*.dart")], .table [("file", .text "")]])]),
    ("length", .table [("enabled", .bool true)]),
    ("rules", .table [("imports", .table [("log_level", .text "error")])])]

def spoiledDraft : ConfigDraft :=
  ⟨none, none, [], none, [("imports", ⟨none, .off, some "error", [], [], []⟩)],
    [("size", .table [("enabled", .bool true), ("exceptions", .list
      [.table [("file", .text "a/*.dart")], .table [("file", .text "")]])]),
    ("length", .table [("enabled", .bool true)])]⟩

theorem ConfigDraft.outcome_check_spoiled :
    ofDatum .refused spoiledDocument = .ok spoiledDraft ∧
      spoiledDraft.check.outcome =
        .error (.invalidPattern "rules.size.exceptions[1].file" .empty) := by
  have hread : ofDatum .refused spoiledDocument = .ok spoiledDraft := by rfl
  refine ⟨hread, ?_⟩
  rw [(outcome_check hread).2.2]
  rfl

end SourceAudit
