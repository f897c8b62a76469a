/-
  SourceAudit/Proofs/BlockPlacement.lean
  ======================================
  **The place of a block.**

  The block of a rule stands under `rules` or at the top level.  A nested block is read as
  it stands, one at the top level from its canonical form; after that both are checked in
  the same way.  What is read is the same up to the order of keys (`RuleDraft.Same`), and
  the checks keep that (`RuleDraft.Same.acceptable_iff`, `RuleDraft.Same.becomes`).

  * `Config.ofJson_placement`: of the two documents with one block, both are configurations
    or neither, and they set the same for the rule.
-/
import SourceAudit.Config.Document
import SourceAudit.Proofs.CanonicalReading
import SourceAudit.Proofs.Json.Parsing
import SourceAudit.Proofs.Validation

namespace SourceAudit

/-! ### Blocks that say the same -/

/-- The same exception, up to the order of its metrics. -/
structure ExceptionEntry.Same (a b : ExceptionEntry) : Prop where
  pattern : a.pattern = b.pattern
  thresholds : a.thresholds = b.thresholds
  metrics : a.metrics.Perm b.metrics
  reason : a.reason = b.reason

/-- The same block, up to the order of metrics and of options. -/
structure RuleConfig.Same (a b : RuleConfig) : Prop where
  enabled : a.enabled = b.enabled
  thresholds : a.thresholds = b.thresholds
  level : a.level = b.level
  exceptions : List.Forall₂ ExceptionEntry.Same a.exceptions b.exceptions
  metrics : a.metrics.Perm b.metrics
  options : a.options.Perm b.options

theorem Level.name_injective : Function.Injective Level.name := by
  intro a b h
  exact Option.some.inj
    ((Level.ofName?_eq_some_iff.mpr rfl).symm.trans (Level.ofName?_eq_some_iff.mpr h.symm))

theorem ExceptionDraft.Same.becomes {e e' : ExceptionDraft} (h : e.Same e')
    {entry entry' : ExceptionEntry} (he : e.Becomes entry) (he' : e'.Becomes entry') :
    entry.Same entry' := by
  obtain ⟨file, hfile, hread⟩ := he.pattern
  obtain ⟨file', hfile', hread'⟩ := he'.pattern
  rw [h.file, hfile'] at hfile
  cases hfile
  rw [hread'] at hread
  refine ⟨(Except.ok.inj hread).symm, ?_, ?_, ?_⟩
  · rw [he.thresholds, he'.thresholds, h.thresholds]
  · rw [he.metrics, he'.metrics]
    exact h.metrics
  · rw [he.reason, he'.reason, h.reason]

theorem ExceptionDraft.Same.all_become {es es' : List ExceptionDraft}
    (h : List.Forall₂ Same es es') {entries entries' : List ExceptionEntry}
    (hes : List.Forall₂ Becomes es entries) (hes' : List.Forall₂ Becomes es' entries') :
    List.Forall₂ ExceptionEntry.Same entries entries' := by
  induction h generalizing entries entries' with
  | nil =>
    cases hes
    cases hes'
    exact .nil
  | cons hfirst _ ih =>
    cases hes with
    | cons he hrest =>
      cases hes' with
      | cons he' hrest' => exact .cons (hfirst.becomes he he') (ih hrest hrest')

theorem RuleDraft.Same.becomes {r r' : RuleDraft} (h : r.Same r') {c c' : RuleConfig}
    (hc : r.Becomes c) (hc' : r'.Becomes c') : c.Same c' := by
  refine ⟨?_, ?_, ?_, ExceptionDraft.Same.all_become h.exceptions hc.exceptions hc'.exceptions,
    ?_, ?_⟩
  · rw [Bool.eq_iff_iff, hc.enabled, hc'.enabled, h.enabled]
  · rw [hc.thresholds, hc'.thresholds, h.thresholds]
  · refine Option.map_injective Level.name_injective ?_
    rw [hc.level, hc'.level, h.level]
  · rw [hc.metrics, hc'.metrics]
    exact h.metrics
  · rw [hc.options, hc'.options]
    exact h.options

theorem ExceptionDraft.Same.readable {es es' : List ExceptionDraft}
    (h : List.Forall₂ Same es es') :
    (∀ e ∈ es, ∃ file pattern, e.file = some file ∧ FilePattern.read file = .ok pattern) ↔
      ∀ e ∈ es', ∃ file pattern, e.file = some file ∧ FilePattern.read file = .ok pattern := by
  induction h with
  | nil => exact Iff.rfl
  | cons hfirst _ ih => rw [List.forall_mem_cons, List.forall_mem_cons, ih, hfirst.file]

theorem RuleDraft.Same.acceptable_iff {r r' : RuleDraft} (h : r.Same r') :
    r.Acceptable ↔ r'.Acceptable := by
  have hexceptions := ExceptionDraft.Same.readable h.exceptions
  constructor
  · intro hr
    exact ⟨h.level ▸ hr.level, hexceptions.mp hr.exceptions⟩
  · intro hr
    exact ⟨h.level ▸ hr.level, hexceptions.mpr hr.exceptions⟩

/-! ### Documents with one block -/

/-- A block under `rules` is read as it stands. -/
theorem ConfigDraft.ofDatum_nested (name : String) (d : Datum) :
    ofDatum .refused (.table [("rules", .table [(name, d)])]) =
      (RuleDraft.ofDatum .refused d).map fun r => ⟨none, none, [], none, [(name, r)], []⟩ := by
  have hread : ofDatum .refused (.table [("rules", .table [(name, d)])]) =
      field .refused ⟨none, none, [], none, [], []⟩ ("rules", .table [(name, d)]) >>= pure := rfl
  rw [hread, field, Shape.table, Shape.values, Shape.values]
  cases RuleDraft.ofDatum .refused d <;> rfl

theorem ConfigDraft.field_other {key : String} (hkey : key ∉ settings) (c : ConfigDraft)
    (d : Datum) :
    field .refused c (key, d) =
      .ok { c with topLevel := Entries.put key d.canonical c.topLevel } := by
  simp only [settings, List.mem_cons, List.not_mem_nil, or_false, not_or] at hkey
  obtain ⟨hlevel, herrors, hamount, hanalyzer, hrules⟩ := hkey
  unfold field
  split
  case h_6 hentry =>
    cases hentry
    rfl
  all_goals
    next hentry =>
    cases hentry
    contradiction

/-- A block at the top level is kept in canonical form. -/
theorem ConfigDraft.ofDatum_flat {name : String} (hname : name ∉ settings) (d : Datum) :
    ofDatum .refused (.table [(name, d)]) =
      .ok ⟨none, none, [], none, [], [(name, d.canonical)]⟩ := by
  have hother : "max_errors" ≠ name := fun h => hname (h ▸ by decide)
  have hdistinct : ([(name, d)].map Prod.fst).Nodup := by simp
  rw [ofDatum, List.lookup_cons, beq_false_of_ne hother, Shape.record,
    Shape.repeated?_eq_none hdistinct]
  change field .refused _ (name, d) >>= pure = _
  rw [field_other hname]
  rfl

/-- What the check comes to is what comes of the block. -/
structure Checked.OfBlock (x : Checked Config) (name : String)
    (block : Except ShapeError RuleDraft) : Prop where
  ok_iff : (∃ c, x.outcome = .ok c) ↔ ∃ r, block = .ok r ∧ r.Acceptable
  rule : ∀ c, x.outcome = .ok c → ∃ r rule, block = .ok r ∧ c.rule? name = some rule ∧
    r.Becomes rule

theorem Checked.OfBlock.fail (name : String) (e : ConfigError) (reason : ShapeError) :
    (Checked.fail e).OfBlock name (.error reason) := by
  have hfail (c : Config) : (Checked.fail e : Checked Config).outcome ≠ .ok c := nofun
  exact ⟨⟨fun ⟨c, hc⟩ => (hfail c hc).elim, nofun⟩, fun c hc => (hfail c hc).elim⟩

theorem Config.rule?_of_rules {c : Config} {rule : String × RuleConfig} (h : c.rules = [rule]) :
    c.rule? rule.1 = some rule.2 := by
  rw [rule?, h, List.lookup_cons_self]

theorem forall₂_singleton_left {α β : Type} {R : α → β → Prop} {a : α} {bs : List β}
    (h : List.Forall₂ R [a] bs) : ∃ b, bs = [b] ∧ R a b := by
  cases h with
  | cons hab hrest =>
    cases hrest
    exact ⟨_, rfl, hab⟩

theorem Config.ofDocument?_nested (name : String) (d : Datum) :
    (ofDocument? .refused (some (.table [("rules", .table [(name, d)])]))).OfBlock name
      (RuleDraft.ofDatum .refused d) := by
  rw [ofDocument?, ConfigDraft.ofDatum_nested]
  cases RuleDraft.ofDatum .refused d with
  | error reason => exact .fail name _ reason
  | ok r =>
    have hfollows := ConfigDraft.check_follows ⟨none, none, [], none, [(name, r)], []⟩ .nil
    refine ⟨?_, fun c hc => ?_⟩
    · refine hfollows.ok_iff.trans (ConfigDraft.faults_eq_nil_iff.trans ?_)
      constructor
      · intro h
        exact ⟨r, rfl, h.blocks _ List.mem_cons_self⟩
      · rintro ⟨r', hr', hacceptable⟩
        cases hr'
        exact ⟨nofun, nofun, List.forall_mem_singleton.mpr hacceptable, nofun, nofun⟩
    · obtain ⟨nested, flat, hrules, hnested, hflat⟩ := (hfollows.of_ok hc).rules
      obtain ⟨rule, rfl, rfl, hrule⟩ := forall₂_singleton_left hnested
      cases hflat
      exact ⟨r, rule.2, rfl, rule?_of_rules hrules, hrule⟩

theorem topLevelDraft?_eq_some_iff {d : Datum} {r : RuleDraft} :
    topLevelDraft? d = some r ↔ RuleDraft.ofDatum .refused d = .ok r := by
  cases d with
  | table entries =>
    rw [topLevelDraft?]
    cases RuleDraft.ofDatum .refused (.table entries) <;> simp [Except.toOption]
  | null | bool b | number n | text s | list items => simp [topLevelDraft?, RuleDraft.ofDatum]

theorem Config.ofDocument?_flat {name : String} (hname : name ∉ ConfigDraft.settings) (d : Datum) :
    (ofDocument? .refused (some (.table [(name, d)]))).OfBlock name
      (RuleDraft.ofDatum .refused d.canonical) := by
  rw [ofDocument?, ConfigDraft.ofDatum_flat hname]
  have hfollows := ConfigDraft.check_follows
    ⟨none, none, [], none, [], [(name, d.canonical)]⟩ (by simp)
  refine ⟨?_, fun c hc => ?_⟩
  · refine hfollows.ok_iff.trans (ConfigDraft.faults_eq_nil_iff.trans ?_)
    constructor
    · intro h
      obtain ⟨entries, r, hd : d.canonical = .table entries, hr⟩ :=
        h.topLevel _ List.mem_cons_self
      exact ⟨r, hd ▸ hr⟩
    · rintro ⟨r, hread, hr⟩
      refine ⟨nofun, nofun, nofun, List.forall_mem_singleton.mpr ?_, fun _ _ => nofun⟩
      cases hd : d.canonical with
      | table entries => exact ⟨entries, r, rfl, hd ▸ hread, hr⟩
      | null | bool b | number n | text s | list items =>
        rw [hd] at hread
        cases hread
  · obtain ⟨nested, flat, hrules, hnested, hflat⟩ := (hfollows.of_ok hc).rules
    obtain ⟨rule, rfl, rfl, r, hdraft, hrule⟩ := forall₂_singleton_left hflat
    cases hnested
    exact ⟨r, rule.2, topLevelDraft?_eq_some_iff.mp hdraft, rule?_of_rules hrules, hrule⟩

/-! ### The two places -/

theorem Config.ofJson_of_text {s : String} {d : Datum} (hs : Json.IsTextOf s d)
    (hdepth : d.depth ≤ Json.maxOpen) : ofJson s = ofDocument? .refused (some d) := by
  rw [ofJson, Json.read?_eq_some_iff.mpr ⟨hs, hdepth⟩]

/-- **A block means the same in both places.**  For a value and the name of a rule, take any text
    with the value as the block of the rule under `rules`, and any with it at the top level.
    Both are configurations or neither is; and then they have the same block for the rule, up
    to the order of its metrics and options. -/
theorem Config.ofJson_placement {name : String} (hname : name ∉ ConfigDraft.settings) {d : Datum}
    (hd : d.IsValue) (hdepth : d.depth + 2 ≤ Json.maxOpen) {nested flat : String}
    (hnested : Json.IsTextOf nested (.table [("rules", .table [(name, d)])]))
    (hflat : Json.IsTextOf flat (.table [(name, d)])) :
    ((∃ c, (ofJson nested).outcome = .ok c) ↔ ∃ c, (ofJson flat).outcome = .ok c) ∧
      ∀ c c', (ofJson nested).outcome = .ok c → (ofJson flat).outcome = .ok c' →
        ∃ rule rule', c.rule? name = some rule ∧ c'.rule? name = some rule' ∧
          rule.Same rule' := by
  have hread := alike_iff.mp (RuleDraft.ofDatum_alike .refused d hd)
  have hunder : (ofJson nested).OfBlock name (RuleDraft.ofDatum .refused d) := by
    rw [ofJson_of_text hnested (by simp only [Datum.depth, Datum.depthEntries]; omega)]
    exact ofDocument?_nested name d
  have htop : (ofJson flat).OfBlock name (RuleDraft.ofDatum .refused d.canonical) := by
    rw [ofJson_of_text hflat (by simp only [Datum.depth, Datum.depthEntries]; omega)]
    exact ofDocument?_flat hname d
  constructor
  · rw [hunder.ok_iff, htop.ok_iff]
    constructor
    · rintro ⟨r, hr, hacceptable⟩
      obtain ⟨r', hr', hsame⟩ := hread.1 r hr
      exact ⟨r', hr', hsame.acceptable_iff.mp hacceptable⟩
    · rintro ⟨r', hr', hacceptable⟩
      obtain ⟨r, hr, hsame⟩ := hread.2 r' hr'
      exact ⟨r, hr, hsame.acceptable_iff.mpr hacceptable⟩
  · intro c c' hc hc'
    obtain ⟨r, rule, hr, hrule, hbecomes⟩ := hunder.rule c hc
    obtain ⟨r', rule', hr', hrule', hbecomes'⟩ := htop.rule c' hc'
    obtain ⟨r'', hr'', hsame⟩ := hread.1 r hr
    rw [hr'] at hr''
    cases hr''
    exact ⟨rule, rule', hrule, hrule', hsame.becomes hbecomes hbecomes'⟩

/-- A block with its options around the fields, and an exception written as a list. -/
def sizeBlock : Datum :=
  .table
    [("unit", .text "lines"), ("enabled", .bool true),
    ("exceptions", .list [.list [.text "gen/*.dart", .null, .number (.integer 900)]]),
    ("ignored", .null)]

theorem sizeBlock_isValue : sizeBlock.IsValue := by
  constructor
  · intro x inside
    simp [sizeBlock] at inside
  · intro entries inside
    have hself : Datum.table entries = sizeBlock := by simpa [sizeBlock] using inside
    cases hself
    decide

def nestedSize : String :=
  "\x7b\"rules\": \x7b\"size\": \x7b\"unit\": \"lines\", \"enabled\": true,\n" ++
    "  \"exceptions\": [[\"gen/*.dart\", null, 900]], \"ignored\": null\x7d\x7d\x7d"

def flatSize : String :=
  "\x7b\"size\":\x7b\"unit\":\"lines\",\"enabled\":true," ++
    "\"exceptions\":[[\"gen/*.dart\",null,900]],\"ignored\":null\x7d\x7d"

set_option maxRecDepth 4000 in
theorem nestedSize_reads :
    Json.read? nestedSize = some (.table [("rules", .table [("size", sizeBlock)])]) := by
  rfl

set_option maxRecDepth 4000 in
theorem flatSize_reads : Json.read? flatSize = some (.table [("size", sizeBlock)]) := by
  rfl

theorem Config.ofJson_placement_size : ∃ c c' rule rule',
    (ofJson nestedSize).outcome = .ok c ∧ (ofJson flatSize).outcome = .ok c' ∧
      c.rule? "size" = some rule ∧ c'.rule? "size" = some rule' ∧ rule.Same rule' := by
  have hplacement := ofJson_placement (by decide) sizeBlock_isValue (by decide)
    (Json.read?_eq_some_iff.mp nestedSize_reads).1 (Json.read?_eq_some_iff.mp flatSize_reads).1
  obtain ⟨c, hc⟩ : ∃ c, (ofJson nestedSize).outcome = .ok c := by
    rw [ofJson, nestedSize_reads]
    exact ⟨_, rfl⟩
  obtain ⟨c', hc'⟩ := hplacement.1.mp ⟨c, hc⟩
  obtain ⟨rule, rule', hrule, hrule', hsame⟩ := hplacement.2 c c' hc hc'
  exact ⟨c, c', rule, rule', hc, hc', hrule, hrule', hsame⟩

end SourceAudit
