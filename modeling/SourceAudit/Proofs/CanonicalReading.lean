/-
  SourceAudit/Proofs/CanonicalReading.lean
  ========================================
  **What is read from a value and from its canonical form.**

  The canonical form of a value has the same fields in another order.  So both can be read
  or neither, and what is read differs only in the order of keys
  (`ExceptionDraft.ofDatum_alike`, `RuleDraft.ofDatum_alike`).
-/
import Mathlib.Data.List.Forall2
import SourceAudit.Proofs.BlockFields
import SourceAudit.Proofs.CanonicalForm

namespace SourceAudit

/-! ### Two readings -/

section

variable {ε α β γ δ : Type}

/-- Both fail, or both give values that belong together. -/
def Alike (R : α → β → Prop) : Except ε α → Except ε β → Prop
  | .ok a, .ok b => R a b
  | .error _, .error _ => True
  | _, _ => False

theorem alike_iff {R : α → β → Prop} {x : Except ε α} {y : Except ε β} :
    Alike R x y ↔ (∀ a, x = .ok a → ∃ b, y = .ok b ∧ R a b) ∧
      ∀ b, y = .ok b → ∃ a, x = .ok a ∧ R a b := by
  cases x <;> cases y <;> simp [Alike]

theorem Alike.refl (x : Except ε α) : Alike Eq x x := by
  cases x
  · trivial
  · exact rfl

theorem Alike.eq_iff {x y : Except ε α} (h : Alike Eq x y) (a : α) : x = .ok a ↔ y = .ok a := by
  cases x <;> cases y <;> simp_all [Alike]

theorem Alike.of_eq_iff {x y : Except ε α} (h : ∀ a, x = .ok a ↔ y = .ok a) : Alike Eq x y := by
  cases x <;> cases y <;> simp_all [Alike]

theorem Alike.trans {R : α → β → Prop} {S : β → γ → Prop} {T : α → γ → Prop} {x : Except ε α}
    {y : Except ε β} {z : Except ε γ} (hxy : Alike R x y) (hyz : Alike S y z)
    (hT : ∀ a b c, R a b → S b c → T a c) : Alike T x z := by
  match x, y, z, hxy, hyz with
  | .ok a, .ok b, .ok c, hab, hbc => exact hT a b c hab hbc
  | .error _, .error _, .error _, _, _ => trivial

theorem Alike.bind {R : α → β → Prop} {S : γ → δ → Prop} {x : Except ε α} {y : Except ε β}
    {f : α → Except ε γ} {g : β → Except ε δ} (h : Alike R x y)
    (hfg : ∀ a b, R a b → Alike S (f a) (g b)) : Alike S (x >>= f) (y >>= g) := by
  cases x <;> cases y
  · trivial
  · exact h.elim
  · exact h.elim
  · exact hfg _ _ h

theorem Alike.mapM {S : γ → δ → Prop} {f : α → Except ε γ} {g : β → Except ε δ}
    {as : List α} {bs : List β} (h : List.Forall₂ (fun a b => Alike S (f a) (g b)) as bs) :
    Alike (List.Forall₂ S) (as.mapM f) (bs.mapM g) := by
  induction h with
  | nil => exact List.Forall₂.nil
  | cons hfirst _ ih =>
    rw [List.mapM_cons, List.mapM_cons]
    refine hfirst.bind fun c d hcd => ?_
    exact ih.bind fun cs ds hrest => List.Forall₂.cons hcd hrest

end

/-! ### Values and their canonical forms -/

/-- The same entries in another order, with their values in canonical form. -/
structure Rendered (entries other : List (String × Datum)) : Prop where
  distinct : (entries.map Prod.fst).Nodup
  values : ∀ e ∈ entries, e.2.IsValue
  perm : other.Perm (Datum.canonicalValues entries)

namespace Rendered

variable {entries other : List (String × Datum)}

theorem distinct_other (h : Rendered entries other) : (other.map Prod.fst).Nodup := by
  rw [(h.perm.map Prod.fst).nodup_iff, Datum.names_canonicalValues]
  exact h.distinct

theorem lookup (h : Rendered entries other) (key : String) :
    other.lookup key = (entries.lookup key).map Datum.canonical := by
  have hdistinct : ((Datum.canonicalValues entries).map Prod.fst).Nodup := by
    rw [Datum.names_canonicalValues]
    exact h.distinct
  rw [Entries.lookup_perm hdistinct h.perm]
  exact Entries.lookup_mapValues Datum.canonical key entries

end Rendered

/-- What `decode` reads from a value and from its canonical form belongs together. -/
def ReadsAlike {α : Type} (R : α → α → Prop) (decode : Datum → Except ShapeError α) : Prop :=
  ∀ d : Datum, d.IsValue → Alike R (decode d) (decode d.canonical)

namespace Shape

variable {α σ : Type}

theorem fieldOr_alike {R : α → α → Prop} {decode : Datum → Except ShapeError α}
    (hdecode : ReadsAlike R decode) {entries other : List (String × Datum)}
    (h : Rendered entries other) (key : String) (absent : α) (habsent : R absent absent) :
    Alike R (fieldOr key decode absent entries) (fieldOr key decode absent other) := by
  rw [fieldOr, fieldOr, h.lookup]
  cases hfound : entries.lookup key with
  | none => exact habsent
  | some d => exact hdecode d (h.values _ (Entries.mem_of_lookup hfound))

/-- Scalars are their own canonical form. -/
theorem scalar_alike {decode : Datum → Except ShapeError α}
    (hlist : ∀ items, ∃ e, decode (.list items) = .error e)
    (htable : ∀ entries, ∃ e, decode (.table entries) = .error e) : ReadsAlike Eq decode := by
  intro d hd
  cases d with
  | null => exact .refl _
  | bool b => exact .refl _
  | number n =>
    rw [hd.canonical_number]
    exact .refl _
  | text s => exact .refl _
  | list items =>
    obtain ⟨e, he⟩ := hlist items
    obtain ⟨e', he'⟩ := hlist (Datum.canonicalItems items)
    rw [Datum.canonical, he, he']
    trivial
  | table entries =>
    obtain ⟨e, he⟩ := htable entries
    obtain ⟨e', he'⟩ := htable (Datum.canonicalEntries entries [])
    rw [Datum.canonical, he, he']
    trivial

theorem list_alike {R : α → α → Prop} {decode : Datum → Except ShapeError α}
    (hdecode : ReadsAlike R decode) : ReadsAlike (List.Forall₂ R) (list decode) := by
  intro d hd
  cases d with
  | list items =>
    rw [Datum.canonical, list, list, Datum.canonicalItems_eq]
    refine Alike.mapM (List.forall₂_map_right_iff.mpr (List.forall₂_same.mpr fun d hitem => ?_))
    exact hdecode d (hd.inside (.item hitem .self))
  | number n =>
    rw [hd.canonical_number]
    trivial
  | null | bool b | text s | table entries => trivial

theorem values_canonical {decode : Datum → Except ShapeError α} (hdecode : ReadsAlike Eq decode)
    {entries : List (String × Datum)} (hvalues : ∀ e ∈ entries, e.2.IsValue) :
    Alike Eq (values decode entries) (values decode (Datum.canonicalValues entries)) := by
  induction entries with
  | nil => exact .refl _
  | cons e rest ih =>
    obtain ⟨hd, hrest⟩ := List.forall_mem_cons.mp hvalues
    refine (hdecode e.2 hd).bind fun a b hab => ?_
    refine (ih hrest).bind fun as bs hall => ?_
    cases hab
    cases hall
    exact .refl _

theorem values_perm (decode : Datum → Except ShapeError α) {entries other : List (String × Datum)}
    (hperm : entries.Perm other) :
    Alike List.Perm (values decode entries) (values decode other) := by
  induction hperm with
  | nil => exact List.Perm.nil
  | cons e _ ih =>
    refine (Alike.refl (decode e.2)).bind fun a b hab => ?_
    cases hab
    exact ih.bind fun as bs hall => hall.cons _
  | swap x y l =>
    simp only [values]
    cases decode x.2 with
    | error e => cases decode y.2 <;> trivial
    | ok v =>
      cases decode y.2 with
      | error e => trivial
      | ok w =>
        cases values decode l with
        | error e => trivial
        | ok vs => exact List.Perm.swap _ _ _
  | trans _ _ ih₁ ih₂ => exact ih₁.trans ih₂ fun _ _ _ => List.Perm.trans

theorem rendered_canonical {entries : List (String × Datum)} (h : (Datum.table entries).IsValue) :
    Rendered entries (Datum.canonicalEntries entries []) :=
  ⟨h.distinct entries .self, fun _ he => h.inside (.entry he .self),
    Datum.canonicalEntries_perm (h.distinct entries .self)⟩

theorem table_alike {decode : Datum → Except ShapeError α} (hdecode : ReadsAlike Eq decode) :
    ReadsAlike List.Perm (table decode) := by
  intro d hd
  cases d with
  | table entries =>
    have hrendered := rendered_canonical hd
    rw [Datum.canonical, table_eq decode hrendered.distinct,
      table_eq decode hrendered.distinct_other]
    refine (values_canonical hdecode hrendered.values).trans
      (values_perm decode hrendered.perm.symm) fun a b c hab hbc => ?_
    exact hab ▸ hbc
  | number n =>
    rw [hd.canonical_number]
    trivial
  | null | bool b | text s | list items => trivial

/-- A list stands for the record with its fields in their order, and so does its canonical form. -/
theorem record_alike {R : σ → σ → Prop} {name : String} {excess : Excess} {fields : List String}
    {step : σ → String × Datum → Except ShapeError σ} {start : σ} (hfields : fields.Nodup)
    (hsteps : ∀ entries other, Rendered entries other →
      Alike R (entries.foldlM step start) (other.foldlM step start)) :
    ReadsAlike R (record name excess fields step start) := by
  intro d hd
  cases d with
  | table entries =>
    have hrendered := rendered_canonical hd
    rw [Datum.canonical, record, record, repeated?_eq_none hrendered.distinct,
      repeated?_eq_none hrendered.distinct_other]
    exact hsteps entries _ hrendered
  | list items =>
    rw [Datum.canonical, record, record, Datum.canonicalItems_eq]
    have hrendered : Rendered (fields.zip items) (fields.zip (items.map Datum.canonical)) := by
      refine ⟨?_, fun e he => hd.inside (.item (List.of_mem_zip he).2 .self), ?_⟩
      · exact hfields.sublist (names_zip_sublist fields items)
      · rw [List.zip_map_right]
        exact .refl _
    refine (hsteps _ _ hrendered).bind fun s t hst => ?_
    rw [List.length_map]
    split
    · trivial
    · exact hst
  | number n =>
    rw [hd.canonical_number]
    trivial
  | null | bool b | text s => trivial

end Shape

/-! ### Rules -/

/-- The same exception, up to the order of its metrics. -/
structure ExceptionDraft.Same (a b : ExceptionDraft) : Prop where
  file : a.file = b.file
  thresholds : a.thresholds = b.thresholds
  metrics : a.metrics.Perm b.metrics
  reason : a.reason = b.reason

/-- The same block, up to the order of metrics and of options. -/
structure RuleDraft.Same (a b : RuleDraft) : Prop where
  enabled : a.enabled = b.enabled
  thresholds : a.thresholds = b.thresholds
  level : a.level = b.level
  exceptions : List.Forall₂ ExceptionDraft.Same a.exceptions b.exceptions
  metrics : a.metrics.Perm b.metrics
  options : a.options.Perm b.options

namespace Shape

theorem bool_alike : ReadsAlike Eq (optional bool) :=
  scalar_alike (fun _ => ⟨_, rfl⟩) (fun _ => ⟨_, rfl⟩)

theorem real_alike : ReadsAlike Eq (optional real) :=
  scalar_alike (fun _ => ⟨_, rfl⟩) (fun _ => ⟨_, rfl⟩)

theorem text_alike : ReadsAlike Eq (optional text) :=
  scalar_alike (fun _ => ⟨_, rfl⟩) (fun _ => ⟨_, rfl⟩)

end Shape

theorem Thresholds.says_iff_of_rendered {entries other : List (String × Datum)}
    (h : Rendered entries other) {start t : Thresholds} :
    start.Says entries t ↔ start.Says other t := by
  rw [says_iff, says_iff]
  exact and_congr ((Shape.fieldOr_alike Shape.real_alike h "warning" _ rfl).eq_iff _)
    ((Shape.fieldOr_alike Shape.real_alike h "error" _ rfl).eq_iff _)

theorem Thresholds.ofDatum_alike (excess : Shape.Excess) :
    ReadsAlike Eq (Thresholds.ofDatum excess) := by
  refine Shape.record_alike (by decide) fun entries other h => Alike.of_eq_iff fun t => ?_
  rw [fields_ok_iff h.distinct, fields_ok_iff h.distinct_other]
  exact says_iff_of_rendered h

theorem metrics_alike (excess : Shape.Excess) :
    ReadsAlike List.Perm (Shape.table (Thresholds.ofDatum excess)) :=
  Shape.table_alike (Thresholds.ofDatum_alike excess)

theorem ExceptionDraft.ofDatum_alike (excess : Shape.Excess) :
    ReadsAlike Same (ofDatum excess) := by
  refine Shape.record_alike (by decide) fun entries other h => alike_iff.mpr ?_
  have hfile := Shape.fieldOr_alike Shape.text_alike h "file" none rfl
  have hmetrics := Shape.fieldOr_alike (metrics_alike excess) h "metrics" [] (.refl _)
  have hreason := Shape.fieldOr_alike Shape.text_alike h "reason" none rfl
  simp only [fields_ok_iff h.distinct, fields_ok_iff h.distinct_other]
  constructor
  · intro a ha
    obtain ⟨metrics, hread, hperm⟩ := (alike_iff.mp hmetrics).1 _ ha.metrics
    exact ⟨⟨a.file, a.thresholds, metrics, a.reason⟩,
      ⟨(hfile.eq_iff _).mp ha.file, (Thresholds.says_iff_of_rendered h).mp ha.thresholds, hread,
        (hreason.eq_iff _).mp ha.reason⟩, ⟨rfl, rfl, hperm, rfl⟩⟩
  · intro b hb
    obtain ⟨metrics, hread, hperm⟩ := (alike_iff.mp hmetrics).2 _ hb.metrics
    exact ⟨⟨b.file, b.thresholds, metrics, b.reason⟩,
      ⟨(hfile.eq_iff _).mpr hb.file, (Thresholds.says_iff_of_rendered h).mpr hb.thresholds, hread,
        (hreason.eq_iff _).mpr hb.reason⟩, ⟨rfl, rfl, hperm, rfl⟩⟩

/-- The options of a block: its other entries in canonical form. -/
theorem RuleDraft.options_eq {entries : List (String × Datum)}
    (hdistinct : (entries.map Prod.fst).Nodup) :
    (others entries).foldl (fun known e => Entries.put e.1 e.2.canonical known) [] =
      Datum.canonicalValues (others entries) := by
  have hnames : ((Datum.canonicalValues (others entries)).map Prod.fst).Nodup := by
    rw [Datum.names_canonicalValues]
    exact hdistinct.sublist (List.filter_sublist.map Prod.fst)
  have hput := Entries.ofList_eq hnames
  rwa [Entries.ofList, Datum.canonicalValues, List.foldl_map] at hput

theorem RuleDraft.options_perm {entries other : List (String × Datum)}
    (h : Rendered entries other) :
    (Datum.canonicalValues (others entries)).Perm (Datum.canonicalValues (others other)) := by
  have hothers : (others other).Perm (Datum.canonicalValues (others entries)) := by
    have hfilter := h.perm.filter fun e => decide (e.1 ∉ fields)
    rwa [Datum.canonicalValues, List.filter_map] at hfilter
  have htwice : Datum.canonicalValues (Datum.canonicalValues (others entries)) =
      Datum.canonicalValues (others entries) := by
    simp [Datum.canonicalValues, Datum.canonical_canonical]
  have hcanonical := hothers.map fun e => (e.1, e.2.canonical)
  rw [← htwice]
  exact hcanonical.symm

theorem RuleDraft.fields_alike (excess : Shape.Excess) {entries other : List (String × Datum)}
    (h : Rendered entries other) :
    Alike Same (entries.foldlM (field excess) ⟨none, .off, none, [], [], []⟩)
      (other.foldlM (field excess) ⟨none, .off, none, [], [], []⟩) := by
  have henabled := Shape.fieldOr_alike Shape.bool_alike h "enabled" none rfl
  have hlevel := Shape.fieldOr_alike Shape.text_alike h "log_level" none rfl
  have hexceptions := Shape.fieldOr_alike (Shape.list_alike (ExceptionDraft.ofDatum_alike excess))
    h "exceptions" [] .nil
  have hmetrics := Shape.fieldOr_alike (metrics_alike excess) h "metrics" [] (.refl _)
  refine alike_iff.mpr ?_
  simp only [fields_ok_iff h.distinct, fields_ok_iff h.distinct_other]
  constructor
  · intro a ha
    obtain ⟨exceptions, hread, hsame⟩ := (alike_iff.mp hexceptions).1 _ ha.exceptions
    obtain ⟨metrics, hread', hperm⟩ := (alike_iff.mp hmetrics).1 _ ha.metrics
    have hoptions := ha.options.trans (options_eq h.distinct)
    exact ⟨⟨a.enabled, a.thresholds, a.level, exceptions, metrics, _⟩,
      ⟨(henabled.eq_iff _).mp ha.enabled, (Thresholds.says_iff_of_rendered h).mp ha.thresholds,
        (hlevel.eq_iff _).mp ha.level, hread, hread', (options_eq h.distinct_other).symm⟩,
      ⟨rfl, rfl, rfl, hsame, hperm, hoptions ▸ options_perm h⟩⟩
  · intro b hb
    obtain ⟨exceptions, hread, hsame⟩ := (alike_iff.mp hexceptions).2 _ hb.exceptions
    obtain ⟨metrics, hread', hperm⟩ := (alike_iff.mp hmetrics).2 _ hb.metrics
    have hoptions := hb.options.trans (options_eq h.distinct_other)
    exact ⟨⟨b.enabled, b.thresholds, b.level, exceptions, metrics, _⟩,
      ⟨(henabled.eq_iff _).mpr hb.enabled, (Thresholds.says_iff_of_rendered h).mpr hb.thresholds,
        (hlevel.eq_iff _).mpr hb.level, hread, hread', (options_eq h.distinct).symm⟩,
      ⟨rfl, rfl, rfl, hsame, hperm, hoptions ▸ options_perm h⟩⟩

/-- The block of a rule, read from a value and from its canonical form. -/
theorem RuleDraft.ofDatum_alike (excess : Shape.Excess) : ReadsAlike Same (ofDatum excess) := by
  intro d hd
  cases d with
  | table entries =>
    have hrecord : ReadsAlike Same (Shape.record "struct RuleConfigDto" excess fields
        (field excess) ⟨none, .off, none, [], [], []⟩) :=
      Shape.record_alike (by decide) fun _ _ => fields_alike excess
    exact hrecord (.table entries) hd
  | number n =>
    rw [hd.canonical_number]
    trivial
  | null | bool b | text s | list items => trivial

end SourceAudit
