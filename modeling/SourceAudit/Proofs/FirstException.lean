/-
  SourceAudit/Proofs/FirstException.lean
  ======================================
  **The first exception that covers a file decides.**

  A file is seen from up to three sides: behind the base of the run, behind the directory of
  the configuration, and by its bare name (`Resolver.Seen`).  An exception covers it when its
  pattern selects one of these texts.  The thresholds for the file are those of the rule or of
  the metric, and over them lies, each threshold by itself, what the first covering exception
  gives (`Resolver.Decided`).  No exception behind that one counts, and one that does not
  cover the file counts nowhere.

  * `Resolver.mem_projections_iff`: the texts a file is tried by are those it is seen as;
  * `Resolver.thresholds_eq_iff`: what is resolved is what is decided;
  * `Resolver.first_exception_decides`: both, and which exceptions do not count.
-/
import SourceAudit.Proofs.RelativePaths
import SourceAudit.Threshold.Resolver
import Mathlib.Data.List.Find

namespace SourceAudit

/-! ### Thresholds for a metric -/

/-- What a table gives for a metric; for one that it does not hold, and for none, what is
    given in general. -/
inductive MetricTable.Gives (table : MetricTable) (general : Thresholds) :
    Option String → Thresholds → Prop
  | own {metric : String} {own : Thresholds} {front back : MetricTable}
      (hentry : table = front ++ (metric, own) :: back) (hfirst : metric ∉ front.map Prod.fst) :
      Gives table general (some metric) own
  | fallback {metric : String} (habsent : metric ∉ table.map Prod.fst) :
      Gives table general (some metric) general
  | general : Gives table general none general

theorem MetricTable.gives_iff {table : MetricTable} {general t : Thresholds}
    {metric : Option String} : table.Gives general metric t ↔
      (metric.bind fun id => table.lookup id).getD general = t := by
  constructor
  · intro hgives
    cases hgives with
    | @own metric own front back hentry hfirst =>
      have hlookup : table.lookup metric = some t := by
        rw [List.lookup_eq_some_iff]
        refine ⟨front, back, hentry, ?_⟩
        intro entry hmem
        rw [bne_iff_ne]
        rintro rfl
        exact hfirst (List.mem_map_of_mem hmem)
      rw [Option.bind_some, hlookup, Option.getD_some]
    | @fallback metric habsent =>
      have hlookup : table.lookup metric = none := by
        rw [← Option.not_isSome_iff_eq_none, Entries.lookup_isSome_iff_mem]
        exact habsent
      rw [Option.bind_some, hlookup, Option.getD_none]
    | general => rfl
  · rintro rfl
    cases metric with
    | none => exact .general
    | some id =>
      rw [Option.bind_some]
      cases hlookup : table.lookup id with
      | none =>
        apply Gives.fallback
        rw [← Entries.lookup_isSome_iff_mem, hlookup]
        exact Bool.false_ne_true
      | some own =>
        obtain ⟨front, back, hentry, hother⟩ := List.lookup_eq_some_iff.mp hlookup
        refine .own hentry ?_
        intro hmem
        obtain ⟨entry, hfront, rfl⟩ := List.mem_map.mp hmem
        exact absurd rfl (bne_iff_ne.mp (hother entry hfront))

/-- `t` is `base`, but for the thresholds that `overrides` sets. -/
structure Thresholds.Overlaid (base overrides t : Thresholds) : Prop where
  warning_set : ∀ x, overrides.warning = some x → t.warning = some x
  warning_kept : overrides.warning = none → t.warning = base.warning
  error_set : ∀ x, overrides.error = some x → t.error = some x
  error_kept : overrides.error = none → t.error = base.error

theorem Thresholds.overlaid_iff {base overrides t : Thresholds} :
    Overlaid base overrides t ↔ base.overlay overrides = t := by
  constructor
  · intro h
    obtain ⟨warning, error⟩ := t
    rw [overlay, mk.injEq]
    constructor
    · cases hset : overrides.warning with
      | none => exact (h.warning_kept hset).symm
      | some x => exact (h.warning_set x hset).symm
    · cases hset : overrides.error with
      | none => exact (h.error_kept hset).symm
      | some x => exact (h.error_set x hset).symm
  · rintro rfl
    constructor
    · intro x hset
      rw [overlay, hset, Option.some_or]
    · intro hkept
      rw [overlay, hkept, Option.none_or]
    · intro x hset
      rw [overlay, hset, Option.some_or]
    · intro hkept
      rw [overlay, hkept, Option.none_or]

namespace Resolver

variable {r : Resolver} {file : Path} {config : RuleConfig} {metric : Option String}

/-! ### The sides of a file -/

/-- The file is seen as the text `s`: inside the base or inside the directory of the
    configuration, or by its name. -/
inductive Seen (r : Resolver) (file : Path) : String → Prop
  | base {q : Path} (hbehind : (r.base.join file).Behind r.base q)
      (hinside : (r.base.join file).folded ≠ r.base.folded) : Seen r file q.slashText
  | configuration {directory q : Path} (hdirectory : r.configDirectory = some directory)
      (hbehind : (r.base.join file).Behind directory q)
      (hinside : (r.base.join file).folded ≠ directory.folded) : Seen r file q.slashText
  | name {s : String} (hlast : file.components.getLast? = some (.name s)) : Seen r file s

theorem isEmpty_slashText (p : Path) : p.slashText.isEmpty = true ↔ p.text = "" := by
  simp [Path.slashText, Text.forwardSlashes]

theorem behind?_eq_some_iff {directory : Path} {s : String} :
    r.behind? file directory = some s ↔
      ∃ q, (r.base.join file).Behind directory q ∧
        (r.base.join file).folded ≠ directory.folded ∧ s = q.slashText := by
  rw [behind?, Option.filter_eq_some_iff, Option.map_eq_some_iff]
  constructor
  · rintro ⟨⟨q, hq, rfl⟩, hsome⟩
    have hbehind := Path.relativeTo?_folded_iff.mp hq
    refine ⟨q, hbehind, ?_, rfl⟩
    rw [Ne, ← hbehind.text_eq_empty_iff, ← isEmpty_slashText]
    simpa using hsome
  · rintro ⟨q, hbehind, hinside, rfl⟩
    rw [Ne, ← hbehind.text_eq_empty_iff, ← isEmpty_slashText] at hinside
    exact ⟨⟨q, Path.relativeTo?_folded_iff.mpr hbehind, rfl⟩, by simpa using hinside⟩

theorem mem_projections_iff {s : String} : s ∈ r.projections file ↔ r.Seen file s := by
  simp only [projections, List.mem_append, Option.mem_toList, Option.bind_eq_some_iff,
    behind?_eq_some_iff]
  constructor
  · rintro ((⟨q, hbehind, hinside, rfl⟩ | ⟨directory, hdirectory, q, hbehind, hinside, rfl⟩) | hname)
    · exact .base hbehind hinside
    · exact .configuration hdirectory hbehind hinside
    · exact .name (Path.fileName?_eq_some_iff.mp hname)
  · intro hseen
    cases hseen with
    | base hbehind hinside => exact .inl (.inl ⟨_, hbehind, hinside, rfl⟩)
    | configuration hdirectory hbehind hinside =>
      exact .inl (.inr ⟨_, hdirectory, _, hbehind, hinside, rfl⟩)
    | name hlast => exact .inr (Path.fileName?_eq_some_iff.mpr hlast)

/-- The pattern of the exception selects the file from one of its sides. -/
def Covers (r : Resolver) (file : Path) (e : ExceptionEntry) : Prop :=
  ∃ s, r.Seen file s ∧ e.pattern.selects s.toList = true

theorem selects_iff_covers {e : ExceptionEntry} :
    r.selects file e.pattern = true ↔ r.Covers file e := by
  rw [selects, List.any_eq_true, Covers]
  simp only [mem_projections_iff]

/-! ### The first exception -/

theorem exception?_eq_some_iff {e : ExceptionEntry} : r.exception? file config = some e ↔
    ∃ front back, config.exceptions = front ++ e :: back ∧ (∀ d ∈ front, ¬ r.Covers file d) ∧
      r.Covers file e := by
  rw [exception?, List.find?_eq_some_iff_append]
  simp only [← selects_iff_covers, Bool.not_eq_true', Bool.not_eq_true]
  constructor
  · rintro ⟨hcovers, front, back, hentry, hbefore⟩
    exact ⟨front, back, hentry, hbefore, hcovers⟩
  · rintro ⟨front, back, hentry, hbefore, hcovers⟩
    exact ⟨hcovers, front, back, hentry, hbefore⟩

theorem exception?_eq_none_iff :
    r.exception? file config = none ↔ ∀ e ∈ config.exceptions, ¬ r.Covers file e := by
  rw [exception?, List.find?_eq_none]
  simp only [selects_iff_covers]

/-- The thresholds `t` for a file: those of the rule or the metric, under what the first
    covering exception gives. -/
inductive Decided (r : Resolver) (file : Path) (config : RuleConfig) (metric : Option String) :
    Thresholds → Prop
  | exception {front back : List ExceptionEntry} {e : ExceptionEntry}
      {base overrides t : Thresholds} (hentry : config.exceptions = front ++ e :: back)
      (hbefore : ∀ d ∈ front, ¬ r.Covers file d) (hcovers : r.Covers file e)
      (hbase : config.metrics.Gives config.thresholds metric base)
      (hoverrides : e.metrics.Gives e.thresholds metric overrides)
      (hover : base.Overlaid overrides t) : Decided r file config metric t
  | base {base : Thresholds} (hnone : ∀ e ∈ config.exceptions, ¬ r.Covers file e)
      (hbase : config.metrics.Gives config.thresholds metric base) :
      Decided r file config metric base

theorem thresholds_eq_iff {t : Thresholds} :
    r.thresholds file config metric = t ↔ r.Decided file config metric t := by
  constructor
  · rintro rfl
    rw [thresholds]
    cases hexception : r.exception? file config with
    | none =>
      exact .base (exception?_eq_none_iff.mp hexception) (MetricTable.gives_iff.mpr rfl)
    | some e =>
      obtain ⟨front, back, hentry, hbefore, hcovers⟩ := exception?_eq_some_iff.mp hexception
      exact .exception hentry hbefore hcovers (MetricTable.gives_iff.mpr rfl)
        (MetricTable.gives_iff.mpr rfl) (Thresholds.overlaid_iff.mpr rfl)
  · intro hdecided
    rw [thresholds]
    cases hdecided with
    | @exception front back e base overrides t hentry hbefore hcovers hbase hoverrides hover =>
      rw [exception?_eq_some_iff.mpr ⟨front, back, hentry, hbefore, hcovers⟩]
      obtain rfl : config.base metric = base := MetricTable.gives_iff.mp hbase
      obtain rfl : e.overrides metric = overrides := MetricTable.gives_iff.mp hoverrides
      exact Thresholds.overlaid_iff.mp hover
    | base hnone hbase =>
      rw [exception?_eq_none_iff.mpr hnone]
      exact MetricTable.gives_iff.mp hbase

theorem value_resolve :
    (r.resolve file config metric).value = r.thresholds file config metric := by
  rw [resolve]
  split <;> rfl

/-- Only which exceptions' patterns select a file counts for it. -/
theorem thresholds_eq_of_selects {r' : Resolver} {file' : Path}
    (hselects : ∀ e ∈ config.exceptions, r.selects file e.pattern = r'.selects file' e.pattern) :
    r.thresholds file config metric = r'.thresholds file' config metric := by
  have hexception : r.exception? file config = r'.exception? file' config :=
    List.find?_congr hselects
  rw [thresholds, thresholds, hexception]

/-- Patterns select by the projections of a file. -/
theorem value_resolve_congr {r' : Resolver} {file' : Path}
    (hprojections : r.projections file = r'.projections file') :
    (r.resolve file config metric).value = (r'.resolve file' config metric).value := by
  rw [value_resolve, value_resolve]
  refine thresholds_eq_of_selects ?_
  intro e _
  rw [selects, selects, hprojections]

/-! ### Exceptions that do not count -/

theorem thresholds_congr {other : RuleConfig}
    (hexception : r.exception? file config = r.exception? file other)
    (hbase : config.base metric = other.base metric) :
    r.thresholds file config metric = r.thresholds file other metric := by
  rw [thresholds, thresholds, hexception, hbase]

theorem exception?_behind (config : RuleConfig) (front back more : List ExceptionEntry)
    {e : ExceptionEntry} (hcovers : r.Covers file e) :
    r.exception? file { config with exceptions := front ++ e :: back } =
      r.exception? file { config with exceptions := front ++ e :: more } := by
  have hselects := selects_iff_covers.mpr hcovers
  simp [exception?, List.find?_append, hselects]

theorem exception?_inserted (config : RuleConfig) (front back : List ExceptionEntry)
    {e : ExceptionEntry} (hother : ¬ r.Covers file e) :
    r.exception? file { config with exceptions := front ++ e :: back } =
      r.exception? file { config with exceptions := front ++ back } := by
  have hselects : r.selects file e.pattern = false := by
    rw [← Bool.not_eq_true, selects_iff_covers]
    exact hother
  simp [exception?, List.find?_append, hselects]

/-- **The first covering exception decides.**  What is resolved for a file is what the first
    exception that covers it leaves of the thresholds of the rule or the metric.  Whatever
    stands behind a covering exception makes no difference, nor does an exception, wherever
    it stands, that does not cover the file. -/
theorem first_exception_decides (r : Resolver) (file : Path) (config : RuleConfig)
    (metric : Option String) :
    (∀ t, (r.resolve file config metric).value = t ↔ r.Decided file config metric t) ∧
      (∀ front back more e, r.Covers file e →
        (r.resolve file { config with exceptions := front ++ e :: back } metric).value =
          (r.resolve file { config with exceptions := front ++ e :: more } metric).value) ∧
      ∀ front back e, ¬ r.Covers file e →
        (r.resolve file { config with exceptions := front ++ e :: back } metric).value =
          (r.resolve file { config with exceptions := front ++ back } metric).value := by
  refine ⟨fun t => ?_, ?_, ?_⟩
  · rw [value_resolve]
    exact thresholds_eq_iff
  · intro front back more e hcovers
    rw [value_resolve, value_resolve]
    exact thresholds_congr (exception?_behind config front back more hcovers) rfl
  · intro front back e hother
    rw [value_resolve, value_resolve]
    exact thresholds_congr (exception?_inserted config front back hother) rfl

/-! ### A file that is generated -/

def generatedPath : Path := ⟨"/w/lib/./generated/api.dart"⟩

/-- The directory of the configuration lies around the base. -/
def libraryResolver : Resolver := ⟨⟨"/w/lib"⟩, some ⟨"/w"⟩⟩

def countedConfig : RuleConfig :=
  { RuleConfig.default with metrics := [("lines", ⟨none, some (.zero false)⟩)] }

/-- An exception with a warning in general and nothing for the count of lines. -/
def exceptionFor (pattern : FilePattern) : ExceptionEntry :=
  ⟨pattern, ⟨some (.infinity false), none⟩, [("lines", .off)], none⟩

/-- The exception for `lib/generated` keeps the limit on lines, before a later one for all
    files and behind an earlier one that does not cover the file. -/
theorem first_exception_decides_generated :
    ∃ mine other all, FilePattern.read "lib/generated/*.dart" = .ok mine ∧
      FilePattern.read "generated" = .ok other ∧ FilePattern.read "*" = .ok all ∧
      libraryResolver.Covers generatedPath (exceptionFor mine) ∧
      ¬ libraryResolver.Covers generatedPath (exceptionFor other) ∧
      (libraryResolver.resolve generatedPath { countedConfig with
          exceptions := [exceptionFor other, exceptionFor mine, exceptionFor all] }
        (some "lines")).value =
        (libraryResolver.resolve generatedPath { countedConfig with
          exceptions := [exceptionFor mine] } (some "lines")).value ∧
      (libraryResolver.resolve generatedPath { countedConfig with
          exceptions := [exceptionFor mine] } (some "lines")).value =
        ⟨none, some (.zero false)⟩ := by
  obtain ⟨mine, other, all, hmine, hother, hall, hselects, hmisses⟩ : ∃ mine other all,
      FilePattern.read "lib/generated/*.dart" = .ok mine ∧
        FilePattern.read "generated" = .ok other ∧ FilePattern.read "*" = .ok all ∧
        libraryResolver.selects generatedPath mine = true ∧
        libraryResolver.selects generatedPath other = false :=
    ⟨_, _, _, rfl, rfl, rfl, by decide +kernel, by decide +kernel⟩
  have hcovers : libraryResolver.Covers generatedPath (exceptionFor mine) :=
    selects_iff_covers.mp hselects
  have hvain : ¬ libraryResolver.Covers generatedPath (exceptionFor other) := by
    rw [← selects_iff_covers, exceptionFor, hmisses]
    exact Bool.false_ne_true
  obtain ⟨-, hbehind, hinserted⟩ := first_exception_decides libraryResolver generatedPath
    countedConfig (some "lines")
  obtain ⟨hdecided, -, -⟩ := first_exception_decides libraryResolver generatedPath
    { countedConfig with exceptions := [exceptionFor mine] } (some "lines")
  refine ⟨mine, other, all, hmine, hother, hall, hcovers, hvain, ?_, ?_⟩
  · have hskipped := hinserted [] [exceptionFor mine, exceptionFor all] _ hvain
    exact hskipped.trans (hbehind [] [exceptionFor all] [] _ hcovers)
  · rw [hdecided]
    have hlimit : countedConfig.metrics.Gives countedConfig.thresholds (some "lines")
        ⟨none, some (.zero false)⟩ := MetricTable.gives_iff.mpr rfl
    have hnothing : (exceptionFor mine).metrics.Gives (exceptionFor mine).thresholds
        (some "lines") .off := MetricTable.gives_iff.mpr rfl
    exact .exception (List.nil_append _).symm (List.forall_mem_nil _) hcovers hlimit hnothing
      (Thresholds.overlaid_iff.mpr rfl)

end Resolver

end SourceAudit
