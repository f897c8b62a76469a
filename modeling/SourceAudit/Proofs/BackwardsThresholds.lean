/-
  SourceAudit/Proofs/BackwardsThresholds.lean
  ===========================================
  **Backwards thresholds are told once.**

  The rule for metrics remembers which pairs of thresholds it has told to be backwards.  A pair
  is told when the share of comments is evaluated with it and its error threshold is not below
  its warning threshold: it is at least as great, or the two cannot be compared because one of
  them is no number (`Metric.OutOfOrder`).

  * `Metric.askFile_told`: asked about one file, the rule tells its pair if that is out of order
    and was not told before, and remembers it then; it warns of nothing else;
  * `Metric.backwards_told_once`: over any number of files and configurations it warns of every
    pair that was out of order, of each one once.
-/
import SourceAudit.Proofs.Answers

namespace SourceAudit

variable {σ α β : Type}

/-! ### Warnings among the events -/

/-- The texts of the warnings, in order. -/
def Logged.warnings (x : Logged α) : List String :=
  (x.events.filter fun e => e.level = .warn).map Event.message

namespace Logged

@[simp] theorem warnings_pure (a : α) : (pure a : Logged α).warnings = [] := rfl

@[simp] theorem warnings_warn (message : String) : (warn message).warnings = [message] := rfl

@[simp] theorem warnings_trace (message : String) : (trace message).warnings = [] := rfl

@[simp] theorem warnings_bind (x : Logged α) (f : α → Logged β) :
    (x >>= f).warnings = x.warnings ++ (f x.value).warnings := by
  have hevents : (x >>= f).events = x.events ++ (f x.value).events := rfl
  rw [warnings, hevents, List.filter_append, List.map_append, warnings, warnings]

end Logged

/-- Thresholds are resolved without a warning. -/
theorem FileContext.warnings_thresholds (f : FileContext) (config : RuleConfig)
    (metric : Option String) : (f.thresholds config metric).warnings = [] := by
  unfold thresholds Resolver.resolve
  split <;> rfl

/-! ### One file after the other -/

/-- A rule is asked about files in turn, each under a configuration of its own, and hands on
    what it remembers. -/
def Rule.askInTurn (r : Rule σ) (memory : σ) : List (FileContext × RuleConfig) → Logged σ
  | [] => return memory
  | (f, config) :: rest => do
    let (_, memory) ← r.askFile f config memory
    r.askInTurn memory rest

theorem Rule.warnings_askInTurn (r : Rule σ) (memory : σ) (f : FileContext) (config : RuleConfig)
    (rest : List (FileContext × RuleConfig)) :
    (r.askInTurn memory ((f, config) :: rest)).warnings =
      (r.askFile f config memory).warnings ++
        (r.askInTurn (r.askFile f config memory).value.2 rest).warnings := by
  rw [askInTurn, Logged.warnings_bind]

namespace Metric

variable {m : Metric} {f : FileContext} {config : RuleConfig} {count : LineCount} {told : Told}
  {t : Thresholds}

/-! ### Thresholds that are out of order -/

/-- The share of comments is evaluated with the thresholds `t`, and the error threshold is not
    below the one for warnings: it is at least as great, or one of the two is no number. -/
structure OutOfOrder (config : RuleConfig) (t : Thresholds) : Prop where
  configured : config.metrics.lookup commentShare.id = some t ∧ isIdle t = false
  unordered : ∃ warning error, t = ⟨some warning, some error⟩ ∧
    (error.atLeast warning = true ∨ warning.isNaN = true ∨ error.isNaN = true)

/-- A configuration has one pair of thresholds for the share of comments. -/
theorem OutOfOrder.unique {t' : Thresholds} (h : OutOfOrder config t) (h' : OutOfOrder config t') :
    t = t' :=
  Option.some.inj (h.configured.1.symm.trans h'.configured.1)

theorem not_isBelow_iff {x y : Binary64} : x.isBelow y = false ↔
    x.atLeast y = true ∨ y.isNaN = true ∨ x.isNaN = true := by
  unfold Binary64.isBelow Binary64.atLeast
  cases x.isNaN
  · cases y.isNaN
    · simp
    · simp
  · simp

theorem isBackwards_commentShare : commentShare.isBackwards t = true ↔
    ∃ warning error, t = ⟨some warning, some error⟩ ∧
      (error.atLeast warning = true ∨ warning.isNaN = true ∨ error.isNaN = true) := by
  obtain ⟨warning, error⟩ := t
  cases warning with
  | none => simp [isBackwards]
  | some warning =>
    cases error with
    | none => simp [isBackwards]
    | some error =>
      have hbackwards : commentShare.isBackwards ⟨some warning, some error⟩ = true ↔
          error.isBelow warning = false := by simp [isBackwards, direction]
      rw [hbackwards, not_isBelow_iff]
      constructor
      · intro h
        exact ⟨warning, error, rfl, h⟩
      · rintro ⟨warning', error', hsame, h⟩
        cases hsame
        exact h

/-- Of no other metric less is worse. -/
theorem isBackwards_of_ne (hm : m ≠ .commentShare) : m.isBackwards t = false := by
  cases m with
  | commentShare => exact absurd rfl hm
  | sourceLines => rfl
  | longestLine => rfl

/-! ### What is told about one file -/

section

variable (f : FileContext) (config : RuleConfig) (count : LineCount) (told : Told)

/-- A check warns of backwards thresholds only, and remembers those. -/
theorem check_told (m : Metric) : (m.check f config count told).warnings =
      (((config.metrics.lookup m.id).filter fun t => !isIdle t).elim []
        fun t => (m.tellBackwards t told).warnings) ∧
    (m.check f config count told).value.2 =
      ((config.metrics.lookup m.id).filter fun t => !isIdle t).elim told
        fun t => (m.tellBackwards t told).value := by
  unfold check
  cases (config.metrics.lookup m.id).filter fun t => !isIdle t with
  | none => exact ⟨rfl, rfl⟩
  | some base =>
    simp only [Logged.warnings_bind, Logged.value_bind, Option.elim_some]
    cases m.value? count with
    | none => simp
    | some value =>
      simp only [Logged.warnings_bind, Logged.value_bind, FileContext.warnings_thresholds]
      cases (f.thresholds config (some m.id)).value.classify m.direction value <;> simp

/-- A pair is told and remembered when it is backwards and new, and else nothing is. -/
theorem tellBackwards_cases (m : Metric) (t : Thresholds) :
    (m.isBackwards t = true ∧ (m, t) ∉ told ∧ m.tellBackwards t told = do
      Logged.warn (m.backwardsMessage t)
      return (m, t) :: told) ∨
    (m.isBackwards t = true → (m, t) ∈ told) ∧ m.tellBackwards t told = pure told := by
  unfold tellBackwards
  by_cases hnew : (m.isBackwards t && !told.contains (m, t)) = true
  · rw [if_pos hnew]
    rw [Bool.and_eq_true, Bool.not_eq_true', List.contains_eq_mem, decide_eq_false_iff_not] at hnew
    exact .inl ⟨hnew.1, hnew.2, rfl⟩
  · rw [if_neg hnew]
    refine .inr ⟨fun hbackwards => ?_, rfl⟩
    simpa [hbackwards] using hnew

theorem tellBackwards_of_ne (hm : m ≠ .commentShare) : m.tellBackwards t told = pure told := by
  rw [tellBackwards, isBackwards_of_ne hm, Bool.false_and]
  rfl

theorem check_told_of_ne (hm : m ≠ .commentShare) :
    (m.check f config count told).warnings = [] ∧ (m.check f config count told).value.2 = told := by
  obtain ⟨hwarnings, htold⟩ := check_told f config count told m
  rw [hwarnings, htold]
  cases (config.metrics.lookup m.id).filter fun t => !isIdle t with
  | none => exact ⟨rfl, rfl⟩
  | some base =>
    rw [Option.elim_some, Option.elim_some, tellBackwards_of_ne told hm]
    exact ⟨rfl, rfl⟩

theorem checkAll_told_of_ne (hm : m ≠ .commentShare) (rest : List Metric) :
    (checkAll f config count told (m :: rest)).warnings =
        (checkAll f config count told rest).warnings ∧
      (checkAll f config count told (m :: rest)).value.2 =
        (checkAll f config count told rest).value.2 := by
  obtain ⟨hwarnings, htold⟩ := check_told_of_ne f config count told hm
  simp [checkAll, hwarnings, htold]

theorem check_told_commentShare :
    (∃ t, OutOfOrder config t ∧ (commentShare, t) ∉ told ∧
      (commentShare.check f config count told).warnings = [commentShare.backwardsMessage t] ∧
      (commentShare.check f config count told).value.2 = (commentShare, t) :: told) ∨
    (∀ t, OutOfOrder config t → (commentShare, t) ∈ told) ∧
      (commentShare.check f config count told).warnings = [] ∧
      (commentShare.check f config count told).value.2 = told := by
  obtain ⟨hwarnings, htold⟩ := check_told f config count told commentShare
  rw [hwarnings, htold]
  cases hbase : (config.metrics.lookup commentShare.id).filter fun t => !isIdle t with
  | none =>
    refine .inr ⟨fun t ht => ?_, rfl, rfl⟩
    rw [Option.filter_eq_none_iff] at hbase
    exact absurd (by rw [ht.configured.2]; rfl) (hbase t ht.configured.1)
  | some base =>
    obtain ⟨hlookup, hactive⟩ := Option.filter_eq_some_iff.mp hbase
    have hconfigured : config.metrics.lookup commentShare.id = some base ∧ isIdle base = false :=
      ⟨hlookup, by simpa using hactive⟩
    rw [Option.elim_some, Option.elim_some]
    rcases tellBackwards_cases told commentShare base with ⟨hbackwards, hnew, htell⟩ | ⟨hold, htell⟩
    · rw [htell]
      exact .inl ⟨base, ⟨hconfigured, isBackwards_commentShare.mp hbackwards⟩, hnew, rfl, rfl⟩
    · rw [htell]
      refine .inr ⟨fun t ht => ?_, rfl, rfl⟩
      obtain rfl : base = t := Option.some.inj (hlookup.symm.trans ht.configured.1)
      exact hold (isBackwards_commentShare.mpr ht.unordered)

/-- **One file.**  The rule tells a pair of thresholds that is out of order and new to it, and
    remembers that pair.  Else it warns of nothing and remembers what it did. -/
theorem askFile_told :
    (∃ t, OutOfOrder config t ∧ (commentShare, t) ∉ told ∧
      (rule.askFile f config told).warnings = [commentShare.backwardsMessage t] ∧
      (rule.askFile f config told).value.2 = (commentShare, t) :: told) ∨
    (∀ t, OutOfOrder config t → (commentShare, t) ∈ told) ∧
      (rule.askFile f config told).warnings = [] ∧
      (rule.askFile f config told).value.2 = told := by
  let count := LineCount.ofText f.extension? f.content.toList
  have hask : rule.askFile f config told =
      checkAll f config count told all >>= fun x => pure (.ok x.1, x.2) := rfl
  have hlast : (checkAll f config count told [commentShare]).warnings =
        (commentShare.check f config count told).warnings ∧
      (checkAll f config count told [commentShare]).value.2 =
        (commentShare.check f config count told).value.2 := by
    simp [checkAll]
  -- the two metrics in front of the share of comments tell nothing
  obtain ⟨hwarnings, htold⟩ := checkAll_told_of_ne f config count told
    (show sourceLines ≠ commentShare by decide) [longestLine, commentShare]
  obtain ⟨hwarnings', htold'⟩ := checkAll_told_of_ne f config count told
    (show longestLine ≠ commentShare by decide) [commentShare]
  rw [hask, Logged.warnings_bind, Logged.warnings_pure, List.append_nil, Logged.value_bind,
    Logged.value_pure, all, hwarnings, htold, hwarnings', htold', hlast.1, hlast.2]
  exact check_told_commentShare f config count told

end

/-! ### What is told over many files -/

theorem askInTurn_told (told : Told) (calls : List (FileContext × RuleConfig)) :
    ∃ pairs : List Thresholds, pairs.Nodup ∧
      (∀ t, t ∈ pairs ↔ (commentShare, t) ∉ told ∧ ∃ call ∈ calls, OutOfOrder call.2 t) ∧
      (rule.askInTurn told calls).warnings = pairs.map commentShare.backwardsMessage := by
  induction calls generalizing told with
  | nil => exact ⟨[], .nil, by simp, rfl⟩
  | cons call rest ih =>
    obtain ⟨f, config⟩ := call
    rw [Rule.warnings_askInTurn]
    rcases askFile_told f config told with
      ⟨t, ht, hnew, hwarnings, htold⟩ | ⟨hold, hwarnings, htold⟩
    · rw [hwarnings, htold]
      obtain ⟨pairs, hnodup, hmem, hrest⟩ := ih ((commentShare, t) :: told)
      have hfresh : t ∉ pairs := by
        rw [hmem]
        simp
      refine ⟨t :: pairs, List.nodup_cons.mpr ⟨hfresh, hnodup⟩, fun t' => ?_, ?_⟩
      · by_cases hsame : t' = t
        · rw [hsame]
          exact iff_of_true (List.mem_cons_self ..) ⟨hnew, (f, config), List.mem_cons_self .., ht⟩
        · have hother : ¬ OutOfOrder config t' := fun ht' => hsame (ht'.unique ht)
          simp [hmem, hsame, hother]
      · rw [hrest, List.map_cons, List.singleton_append]
    · rw [hwarnings, htold]
      obtain ⟨pairs, hnodup, hmem, hrest⟩ := ih told
      refine ⟨pairs, hnodup, fun t => ?_, hrest⟩
      rw [hmem]
      constructor
      · rintro ⟨hnew, call, hcall, ht⟩
        exact ⟨hnew, call, List.mem_cons_of_mem _ hcall, ht⟩
      · rintro ⟨hnew, call, hcall, ht⟩
        rcases List.mem_cons.mp hcall with rfl | hcall
        · exact absurd (hold t ht) hnew
        · exact ⟨hnew, call, hcall, ht⟩

/-- **Backwards thresholds.**  A new rule for metrics, asked about any files under any
    configurations, warns of every pair of thresholds for the share of comments that was out of
    order in one of them, of each such pair once, and of nothing else. -/
theorem backwards_told_once (calls : List (FileContext × RuleConfig)) :
    ∃ pairs : List Thresholds, pairs.Nodup ∧
      (∀ t, t ∈ pairs ↔ ∃ call ∈ calls, OutOfOrder call.2 t) ∧
      (rule.askInTurn [] calls).warnings = pairs.map commentShare.backwardsMessage := by
  obtain ⟨pairs, hnodup, hmem, hwarnings⟩ := askInTurn_told [] calls
  refine ⟨pairs, hnodup, fun t => ?_, hwarnings⟩
  rw [hmem]
  exact and_iff_right List.not_mem_nil

/-- A threshold for warnings that is no number. -/
def incomparable : RuleConfig := { RuleConfig.default with
  metrics := [("comment-percentage", ⟨some (.nan false), some (.ofNat 5)⟩)] }

/-- The error threshold is not at or above one that is no number, and yet it is told to be. -/
theorem incomparable_told :
    let f : FileContext := ⟨⟨"/w/a.dart"⟩, "a;\n", ⟨⟨"/w"⟩, none⟩⟩
    (Binary64.ofNat 5).atLeast (.nan false) = false ∧
    (rule.askInTurn [] [(f, incomparable), (f, incomparable)]).warnings =
      ["Metric 'comment-percentage' has backwards thresholds: " ++
        "error (5) should be below warning (NaN)"] := by
  decide +kernel

end Metric

end SourceAudit
