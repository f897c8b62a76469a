/-
  SourceAudit/Proofs/Answers.lean
  ===============================
  **What rules answer.**

  Two statements about a part of the work of a rule, each passed on by sequencing:
  whatever it gives has a property (`RuleWork.Yields`), and it gives the same as another
  one or fails like it (`RuleWork.Agrees`).

  * `Metric.mem_checkAll_iff`: a metric is reported when it is configured, can be measured and
    crosses a threshold.
  * `Registered.of_mem_alone`: the violations of a rule of the library carry its name, and
    those with a magnitude have a measure of one of the files.
-/
import SourceAudit.Proofs.Isolation
import SourceAudit.Rule.BuiltIn

namespace SourceAudit

/-- What shows only its value is the same value, or fails both times. -/
theorem ok_or_error_of_toOption {ε α : Type} {x y : Except ε α}
    (hsame : x.toOption = y.toOption) :
    (∃ a, x = .ok a ∧ y = .ok a) ∨ ∃ e e', x = .error e ∧ y = .error e' := by
  cases x with
  | error e =>
    cases y with
    | error e' => exact .inr ⟨e, e', rfl, rfl⟩
    | ok b => cases hsame
  | ok a =>
    cases y with
    | error e' => cases hsame
    | ok b =>
      cases hsame
      exact .inl ⟨a, rfl, rfl⟩

theorem ok_of_toOption {ε α : Type} {x y : Except ε α} {a : α}
    (hsame : x.toOption = y.toOption) (hx : x = .ok a) : y = .ok a := by
  rcases ok_or_error_of_toOption hsame with ⟨b, hx', hy⟩ | ⟨e, -, hx', -⟩
  · rw [hx] at hx'
    cases hx'
    exact hy
  · rw [hx] at hx'
    cases hx'

namespace RuleWork

variable {α β : Type}

/-- Whatever the work gives has the property. -/
def Yields (P : α → Prop) (x : RuleWork α) : Prop := ∀ a, x.run.value = .ok a → P a

theorem Yields.bind_of {Q : α → Prop} {P : β → Prop} {x : RuleWork α} {f : α → RuleWork β}
    (hx : Yields Q x) (hf : ∀ a, Q a → Yields P (f a)) : Yields P (x >>= f) := by
  intro b hb
  rw [value_bind] at hb
  cases hvalue : x.run.value with
  | error e =>
    rw [hvalue] at hb
    cases hb
  | ok a =>
    rw [hvalue] at hb
    exact hf a (hx a hvalue) b hb

theorem Yields.bind {P : β → Prop} {x : RuleWork α} {f : α → RuleWork β}
    (hf : ∀ a, Yields P (f a)) : Yields P (x >>= f) :=
  Yields.bind_of (fun _ _ => trivial) fun a (_ : True) => hf a

theorem Yields.pure {P : α → Prop} {a : α} (ha : P a) : Yields P (Pure.pure a : RuleWork α) := by
  intro b hb
  cases hb
  exact ha

/-- The work gives the same as other work, or both fail. -/
def Agrees (x y : RuleWork α) : Prop := x.run.value.toOption = y.run.value.toOption

theorem Agrees.refl (x : RuleWork α) : Agrees x x := rfl

theorem Agrees.bind_of {x y : RuleWork α} {f g : α → RuleWork β} (hxy : Agrees x y)
    (hfg : ∀ a, y.run.value = .ok a → Agrees (f a) (g a)) : Agrees (x >>= f) (y >>= g) := by
  unfold Agrees
  rw [value_bind, value_bind]
  rcases ok_or_error_of_toOption hxy with ⟨a, hx, hy⟩ | ⟨e, e', hx, hy⟩
  · rw [hx, hy]
    exact hfg a hy
  · rw [hx, hy]
    rfl

theorem Agrees.bind {x y : RuleWork α} {f g : α → RuleWork β} (hxy : Agrees x y)
    (hfg : ∀ a, Agrees (f a) (g a)) : Agrees (x >>= f) (y >>= g) :=
  hxy.bind_of fun a _ => hfg a

/-- Work that only looks at what is known agrees when that does. -/
theorem Agrees.ofResult {x y : Except RuleError α} (hxy : x.toOption = y.toOption) :
    Agrees (RuleWork.ofResult x) (RuleWork.ofResult y) := hxy

theorem Agrees.lift {x y : Logged α} (hxy : x.value = y.value) :
    Agrees (ExceptT.lift x : RuleWork α) (ExceptT.lift y) := by
  unfold Agrees
  rw [value_lift, value_lift, hxy]

end RuleWork

open RuleWork (Yields)

/-! ### What violations say -/

/-- All violations are of the rule with the name. -/
def AllOf (name : String) (found : List Violation) : Prop := ∀ v ∈ found, v.rule = name

/-- All violations are of the rule with the name, and none has a magnitude. -/
def Unweighed (name : String) (found : List Violation) : Prop :=
  ∀ v ∈ found, v.rule = name ∧ v.magnitude = none

/-- The number of lines of a file, or one of its metrics. -/
def FileContext.Measures (f : FileContext) (x : Binary64) : Prop :=
  x = Binary64.ofNat f.lineCount ∨
    ∃ m : Metric, m.value? (LineCount.ofText f.extension? f.content.toList) = some x

theorem Unweighed.nil (name : String) : Unweighed name [] := List.forall_mem_nil _

theorem Unweighed.append {name : String} {found more : List Violation}
    (hfound : Unweighed name found) (hmore : Unweighed name more) :
    Unweighed name (found ++ more) :=
  List.forall_mem_append.mpr ⟨hfound, hmore⟩

theorem Unweighed.map {α : Type} {name : String} {items : List α} {f : α → Violation}
    (hf : ∀ a, (f a).rule = name ∧ (f a).magnitude = none) : Unweighed name (items.map f) :=
  List.forall_mem_map.mpr fun a _ => hf a

theorem RuleCheck.forall_overFiles {σ : Type} {P : Violation → Prop}
    {ask : FileContext → RuleConfig → σ → Logged (RuleAnswer × σ)} {config : RuleConfig}
    {files : List FileContext}
    (hask : ∀ f ∈ files, ∀ memory found, (ask f config memory).value.1 = .ok found →
      ∀ v ∈ found, P v) {memory : σ} {found : List Violation}
    (hfound : RuleCheck.overFiles ask config memory files = some found) : ∀ v ∈ found, P v := by
  induction files generalizing memory found with
  | nil =>
    cases hfound
    exact List.forall_mem_nil _
  | cons f rest ih =>
    rw [RuleCheck.overFiles] at hfound
    cases hanswer : (ask f config memory).value.1 with
    | error e => simp [hanswer] at hfound
    | ok first =>
      simp only [hanswer, Option.map_eq_some_iff] at hfound
      obtain ⟨more, hmore, rfl⟩ := hfound
      obtain ⟨hfirst, hrest⟩ := List.forall_mem_cons.mp hask
      exact List.forall_mem_append.mpr ⟨hfirst memory first hanswer, ih hrest hmore⟩

/-! #### Rules for files -/

/-- A rule is asked about one file.  One for the whole run has nothing to say about it. -/
def Rule.askFile {σ : Type} (r : Rule σ) (f : FileContext) (config : RuleConfig) (memory : σ) :
    Logged (RuleAnswer × σ) :=
  match r.check with
  | .perFile ask => ask f config memory
  | .projectWide _ => return (.ok [], memory)

theorem FileLength.of_mem_violations {f : FileContext} {config : RuleConfig} {v : Violation}
    (hv : v ∈ (FileLength.violations f config).value) :
    v.file = f.relativePath ∧ v.rule = FileLength.name ∧
      v.magnitude = some (Binary64.ofNat f.lineCount) := by
  rw [FileLength.violations, Logged.value_bind, Logged.value_pure, Option.mem_toList,
    FileLength.violation?] at hv
  obtain ⟨verdict, -, rfl⟩ := Option.map_eq_some_iff.mp hv
  exact ⟨rfl, rfl, rfl⟩

namespace Metric

/-- A metric is configured for a file, can be measured, and crosses a threshold. -/
structure Crosses (m : Metric) (f : FileContext) (config : RuleConfig) (count : LineCount)
    (value : Binary64) (severity : Severity) (limit : Binary64) : Prop where
  configured : ∃ base, config.metrics.lookup m.id = some base ∧ isIdle base = false
  measured : m.value? count = some value
  classified : (f.thresholds config (some m.id)).value.classify m.direction value =
    some (severity, limit)

variable {f : FileContext} {config : RuleConfig} {count : LineCount} {told : Told}
  {v : Violation}

theorem mem_check_iff {m : Metric} : v ∈ (m.check f config count told).value.1 ↔
    ∃ value severity limit, m.Crosses f config count value severity limit ∧
      v = m.violation f value severity limit := by
  unfold check
  cases hbase : (config.metrics.lookup m.id).filter fun t => !isIdle t with
  | none =>
    rw [Option.filter_eq_none_iff] at hbase
    refine ⟨fun hv => absurd hv List.not_mem_nil, ?_⟩
    rintro ⟨value, severity, limit, ⟨⟨base, hlookup, hidle⟩, -, -⟩, -⟩
    exact absurd (by rw [hidle]; rfl) (hbase base hlookup)
  | some base =>
    obtain ⟨hlookup, hactive⟩ := Option.filter_eq_some_iff.mp hbase
    have hconfigured : ∃ base, config.metrics.lookup m.id = some base ∧ isIdle base = false :=
      ⟨base, hlookup, by simpa using hactive⟩
    simp only [Logged.value_bind]
    cases hvalue : m.value? count with
    | none =>
      refine ⟨fun hv => absurd hv List.not_mem_nil, ?_⟩
      rintro ⟨value, severity, limit, ⟨-, hmeasured, -⟩, -⟩
      exact nomatch hvalue.symm.trans hmeasured
    | some value =>
      simp only [Logged.value_bind]
      cases hverdict : (f.thresholds config (some m.id)).value.classify m.direction value with
      | none =>
        refine ⟨fun hv => absurd hv List.not_mem_nil, ?_⟩
        rintro ⟨value', severity, limit, ⟨-, hmeasured, hclassified⟩, -⟩
        obtain rfl := Option.some.inj (hvalue.symm.trans hmeasured)
        exact nomatch hverdict.symm.trans hclassified
      | some verdict =>
        refine ⟨fun hv => ?_, ?_⟩
        · exact ⟨value, verdict.1, verdict.2, ⟨hconfigured, hvalue, hverdict⟩,
            List.mem_singleton.mp hv⟩
        · rintro ⟨value', severity, limit, ⟨-, hmeasured, hclassified⟩, rfl⟩
          obtain rfl := Option.some.inj (hvalue.symm.trans hmeasured)
          obtain rfl := Option.some.inj (hverdict.symm.trans hclassified)
          exact List.mem_singleton.mpr rfl

theorem mem_checkAll_iff {metrics : List Metric} :
    v ∈ (checkAll f config count told metrics).value.1 ↔
      ∃ m ∈ metrics, ∃ value severity limit, m.Crosses f config count value severity limit ∧
        v = m.violation f value severity limit := by
  induction metrics generalizing told with
  | nil => simp [checkAll]
  | cons m rest ih =>
    rw [checkAll, Logged.value_bind, Logged.value_bind, Logged.value_pure, List.mem_append,
      mem_check_iff, ih]
    simp only [List.mem_cons, exists_eq_or_imp]

/-- What was told before decides about events only. -/
theorem check_forgetful (f : FileContext) (config : RuleConfig) (count : LineCount)
    (told told' : Told) (m : Metric) :
    (m.check f config count told).value.1 = (m.check f config count told').value.1 := by
  unfold check
  split
  · rfl
  · rw [Logged.value_bind, Logged.value_bind]
    split
    · rfl
    · rw [Logged.value_bind, Logged.value_bind]
      split
      · rfl
      · rfl

theorem checkAll_forgetful (f : FileContext) (config : RuleConfig) (count : LineCount)
    (told told' : Told) (metrics : List Metric) :
    (checkAll f config count told metrics).value.1 =
      (checkAll f config count told' metrics).value.1 := by
  induction metrics generalizing told told' with
  | nil => rfl
  | cons m rest ih =>
    simp only [checkAll, Logged.value_bind, Logged.value_pure]
    rw [check_forgetful f config count told told' m]
    exact congrArg _ (ih _ _)

theorem of_mem_checkAll {metrics : List Metric}
    (hv : v ∈ (checkAll f config count told metrics).value.1) :
    v.file = f.relativePath ∧ v.rule = Metric.name ∧
      ∃ m : Metric, v.magnitude = m.value? count := by
  obtain ⟨m, -, value, severity, limit, hcrosses, rfl⟩ := mem_checkAll_iff.mp hv
  exact ⟨rfl, rfl, m, hcrosses.measured.symm⟩

end Metric

/-! #### Rules for whole runs -/

theorem ImportBoundary.unweighed_checkFiles (p : ProjectContext) (s : ImportBoundary.Setting)
    (files : List Path) :
    Unweighed ImportBoundary.name (ImportBoundary.checkFiles p s files).value := by
  have hfile (file : Path) :
      Unweighed ImportBoundary.name (ImportBoundary.checkFile p s file).value := by
    unfold ImportBoundary.checkFile
    split
    · exact Unweighed.nil _
    · split
      · exact Unweighed.nil _
      · intro v hv
        obtain ⟨b, -, hb⟩ := List.mem_flatMap.mp hv
        obtain ⟨i, -, rfl⟩ := List.mem_map.mp hb
        exact ⟨rfl, rfl⟩
  induction files with
  | nil => exact Unweighed.nil _
  | cons file rest ih =>
    rw [ImportBoundary.checkFiles, Logged.value_bind, Logged.value_bind, Logged.value_pure]
    exact (hfile file.folded).append ih

theorem ImportBoundary.yields_check (p : ProjectContext) (config : RuleConfig) :
    Yields (Unweighed ImportBoundary.name) (ImportBoundary.check p config) := by
  unfold ImportBoundary.check
  apply Yields.bind
  intro boundaries
  split
  · exact Yields.bind fun _ => Yields.pure (Unweighed.nil _)
  · dsimp only
    split
    · exact Yields.bind fun _ => Yields.pure (Unweighed.nil _)
    · refine Yields.bind fun excludes => Yields.bind fun package => ?_
      intro found hfound
      rw [RuleWork.value_bind, RuleWork.value_lift] at hfound
      cases hfound
      exact ImportBoundary.unweighed_checkFiles p _ p.files

theorem UnusedFiles.yields_checkDirectory (p : ProjectContext) (config : RuleConfig)
    (root directory : Path) :
    Yields (Unweighed UnusedFiles.name) (UnusedFiles.checkDirectory p config root directory) := by
  unfold UnusedFiles.checkDirectory
  refine Yields.bind fun excludes => Yields.bind fun manifest => Yields.bind fun files => ?_
  split
  · exact Yields.bind fun _ => Yields.pure (Unweighed.nil _)
  · apply Yields.bind
    intro edges
    split
    · exact Yields.bind fun _ => Yields.pure (Unweighed.nil _)
    · refine Yields.bind fun targets => Yields.bind fun _ => Yields.pure ?_
      exact Unweighed.map fun _ => ⟨rfl, rfl⟩

theorem UnusedFiles.yields_check (p : ProjectContext) (config : RuleConfig) :
    Yields (Unweighed UnusedFiles.name) (UnusedFiles.check p config) := by
  unfold UnusedFiles.check
  split
  · exact Yields.bind fun _ => Yields.pure (Unweighed.nil _)
  · dsimp only
    split
    · exact Yields.bind fun _ => Yields.pure (Unweighed.nil _)
    · exact UnusedFiles.yields_checkDirectory p config _ _

theorem UnusedPackages.yields_check (p : ProjectContext) (config : RuleConfig) :
    Yields (Unweighed UnusedPackages.name) (UnusedPackages.check p config) := by
  unfold UnusedPackages.check
  split
  · exact Yields.bind fun _ => Yields.pure (Unweighed.nil _)
  · unfold UnusedPackages.checkPackage
    refine Yields.bind fun manifest => Yields.bind fun severity => Yields.bind fun scanned =>
      Yields.bind fun used => ?_
    dsimp only
    split
    · apply Yields.bind
      intro usedDev
      refine Yields.bind_of (Q := Unweighed UnusedPackages.name)
        (Yields.pure (Unweighed.map fun _ => ⟨rfl, rfl⟩)) ?_
      intro foundDev hdev
      refine Yields.bind fun _ => Yields.pure (Unweighed.append ?_ hdev)
      exact Unweighed.map fun _ => ⟨rfl, rfl⟩
    · refine Yields.bind_of (Yields.pure (Unweighed.nil UnusedPackages.name)) ?_
      intro foundDev hdev
      refine Yields.bind fun _ => Yields.pure (Unweighed.append ?_ hdev)
      exact Unweighed.map fun _ => ⟨rfl, rfl⟩

theorem alone_projectWide {σ : Type} (name description : String) (languages : List Language)
    (work : ProjectContext → RuleConfig → RuleWork (List Violation)) (memory : σ)
    (config : RuleConfig) (files : List FileContext) (run : ProjectContext) :
    Registered.alone ⟨Rule.projectWide name description languages work, memory⟩ config files run =
      (work run config).run.value.toOption := rfl

/-- Every violation of a rule of the library has its name, and its magnitude is a measure of
    a file. -/
theorem Registered.of_mem_alone {r : Registered Metric.Told} (hr : r.rule ∈ Rule.builtIn)
    {config : RuleConfig} {files : List FileContext} {run : ProjectContext}
    {found : List Violation} (hfound : r.alone config files run = some found) :
    ∀ v ∈ found, v.rule = r.rule.name ∧
      ∀ x, v.magnitude = some x → ∃ f ∈ files, f.Measures x := by
  obtain ⟨rule, memory⟩ := r
  have hwork {name description : String} {languages : List Language}
      {work : ProjectContext → RuleConfig → RuleWork (List Violation)}
      (hyields : Yields (Unweighed name) (work run config))
      (hfound : Registered.alone ⟨Rule.projectWide name description languages work, memory⟩
        config files run = some found) : ∀ v ∈ found, v.rule = name ∧
          ∀ x, v.magnitude = some x → ∃ f ∈ files, f.Measures x := by
    rw [alone_projectWide] at hfound
    cases hvalue : (work run config).run.value with
    | error e =>
      rw [hvalue] at hfound
      cases hfound
    | ok given =>
      rw [hvalue] at hfound
      cases hfound
      intro v hv
      obtain ⟨hname, hnone⟩ := hyields _ hvalue v hv
      refine ⟨hname, fun x hx => ?_⟩
      rw [hnone] at hx
      cases hx
  simp only [Rule.builtIn, List.mem_cons, List.not_mem_nil, or_false] at hr
  rcases hr with rfl | rfl | rfl | rfl | rfl
  · refine RuleCheck.forall_overFiles ?_ hfound
    intro f hf memory given hgiven v hv
    cases hgiven
    obtain ⟨-, hrule, hmagnitude⟩ := FileLength.of_mem_violations hv
    refine ⟨hrule, fun x hx => ⟨f, hf, .inl ?_⟩⟩
    exact Option.some.inj (hx.symm.trans hmagnitude)
  · refine RuleCheck.forall_overFiles ?_ hfound
    intro f hf memory given hgiven v hv
    obtain rfl : (Metric.checkAll f config (LineCount.ofText f.extension? f.content.toList)
        memory Metric.all).value.1 = given := Except.ok.inj hgiven
    obtain ⟨-, hrule, m, hmagnitude⟩ := Metric.of_mem_checkAll hv
    exact ⟨hrule, fun x hx => ⟨f, hf, .inr ⟨m, hmagnitude.symm.trans hx⟩⟩⟩
  · exact hwork (ImportBoundary.yields_check run config) hfound
  · exact hwork (UnusedFiles.yields_check run config) hfound
  · exact hwork (UnusedPackages.yields_check run config) hfound

theorem Registered.allOf_alone {r : Registered Metric.Told} (hr : r.rule ∈ Rule.builtIn)
    {config : RuleConfig} {files : List FileContext} {run : ProjectContext}
    {found : List Violation} (hfound : r.alone config files run = some found) :
    AllOf r.rule.name found :=
  fun v hv => (Registered.of_mem_alone hr hfound v hv).1

end SourceAudit
