/-
  SourceAudit/Proofs/Records.lean
  ===============================
  **Reading records field by field.**

  A record is read by one step for each field, in document order.  What every step keeps,
  the whole reading keeps (`Shape.record_keeps`).  Where no key stands twice, the order does
  not matter: what is read is said by the value under each key (`Shape.foldlM_ok_iff`).
-/
import Mathlib.Data.List.Forall2
import SourceAudit.Config.Draft
import SourceAudit.Proofs.NamedEntries

namespace SourceAudit

theorem bind_eq_ok_iff {ε α β : Type} {x : Except ε α} {f : α → Except ε β} {b : β} :
    (x >>= f) = .ok b ↔ ∃ a, x = .ok a ∧ f a = .ok b := by
  cases x with
  | error e => simp [bind, Except.bind]
  | ok a => simp [bind, Except.bind]

theorem mapM_eq_ok_iff {ε α β : Type} {f : α → Except ε β} {as : List α} {bs : List β} :
    as.mapM f = .ok bs ↔ List.Forall₂ (fun a b => f a = .ok b) as bs := by
  induction as generalizing bs with
  | nil =>
    rw [List.mapM_nil, List.forall₂_nil_left_iff]
    exact ⟨fun h => (Except.ok.inj h).symm, fun h => congrArg _ h.symm⟩
  | cons a as ih =>
    rw [List.mapM_cons, bind_eq_ok_iff, List.forall₂_cons_left_iff]
    constructor
    · rintro ⟨b, hb, hrest⟩
      obtain ⟨more, hmore, hall⟩ := bind_eq_ok_iff.mp hrest
      exact ⟨b, more, hb, ih.mp hmore, (Except.ok.inj hall).symm⟩
    · rintro ⟨b, more, hb, hmore, rfl⟩
      exact ⟨b, hb, bind_eq_ok_iff.mpr ⟨more, ih.mpr hmore, rfl⟩⟩

theorem exists_of_mem_mapM {ε α β : Type} {f : α → Except ε β} {as : List α} {bs : List β}
    (hread : as.mapM f = .ok bs) {b : β} (hb : b ∈ bs) : ∃ a, f a = .ok b := by
  rw [mapM_eq_ok_iff] at hread
  induction hread with
  | nil => cases hb
  | @cons a first _ _ hfirst _ ih =>
    rcases List.mem_cons.mp hb with rfl | hb
    · exact ⟨a, hfirst⟩
    · exact ih hb

/-- What is built from a value that was read has what every value gives it. -/
theorem of_bind_pure {ε α β : Type} {P : β → Prop} {x : Except ε α} {g : α → β} {b : β}
    (hread : (x >>= fun a => pure (g a)) = .ok b) (hg : ∀ a, P (g a)) : P b := by
  obtain ⟨a, -, hb⟩ := bind_eq_ok_iff.mp hread
  exact Except.ok.inj hb ▸ hg a

/-- What is built from a value that was read. -/
theorem exists_read_iff {ε α γ : Type} {x : Except ε α} {g : α → γ}
    {P : γ → Prop} :
    (∃ c, (x >>= fun a => pure (g a)) = .ok c ∧ P c) ↔ ∃ a, x = .ok a ∧ P (g a) := by
  constructor
  · rintro ⟨c, hread, hc⟩
    obtain ⟨a, ha, hg⟩ := bind_eq_ok_iff.mp hread
    obtain rfl := Except.ok.inj hg
    exact ⟨a, ha, hc⟩
  · rintro ⟨a, rfl, ha⟩
    exact ⟨g a, rfl, ha⟩

theorem exists_pure_iff {ε γ : Type} {c : γ} {P : γ → Prop} :
    (∃ d, (pure c : Except ε γ) = .ok d ∧ P d) ↔ P c :=
  ⟨fun ⟨_, h, hd⟩ => Except.ok.inj h ▸ hd, fun h => ⟨c, rfl, h⟩⟩

namespace Shape

variable {α σ : Type}

theorem foldlM_keeps {step : σ → String × Datum → Except ShapeError σ} {P : σ → Prop}
    (hstep : ∀ s e s', P s → step s e = .ok s' → P s') {entries : List (String × Datum)}
    {s s' : σ} (hs : P s) (hfold : entries.foldlM step s = .ok s') : P s' := by
  induction entries generalizing s with
  | nil =>
    obtain rfl := Except.ok.inj hfold
    exact hs
  | cons e rest ih =>
    rw [List.foldlM_cons, bind_eq_ok_iff] at hfold
    obtain ⟨mid, hmid, hrest⟩ := hfold
    exact ih (hstep s e mid hs hmid) hrest

/-- A property that every step keeps holds of what is read. -/
theorem record_keeps {name : String} {excess : Excess} {fields : List String}
    {step : σ → String × Datum → Except ShapeError σ} {start s : σ} {d : Datum} {P : σ → Prop}
    (hstep : ∀ s e s', P s → step s e = .ok s' → P s') (hstart : P start)
    (hread : record name excess fields step start d = .ok s) : P s := by
  unfold record at hread
  split at hread
  · split at hread
    · cases hread
    · exact foldlM_keeps hstep hstart hread
  · obtain ⟨mid, hmid, hend⟩ := bind_eq_ok_iff.mp hread
    split at hend
    · cases hend
    · obtain rfl := Except.ok.inj hend
      exact foldlM_keeps hstep hstart hmid
  · cases hread

/-! ### Fields by their keys -/

/-- The value read under a key, or what stands there without one. -/
def fieldOr (key : String) (decode : Datum → Except ShapeError α) (absent : α)
    (entries : List (String × Datum)) : Except ShapeError α :=
  match entries.lookup key with
  | none => .ok absent
  | some d => decode d

theorem fieldOr_here {key : String} {decode : Datum → Except ShapeError α} {absent : α}
    {d : Datum} {rest : List (String × Datum)} :
    fieldOr key decode absent ((key, d) :: rest) = decode d := by
  simp [fieldOr]

theorem fieldOr_other {key k : String} (hother : key ≠ k) {decode : Datum → Except ShapeError α}
    {absent : α} {d : Datum} {rest : List (String × Datum)} :
    fieldOr key decode absent ((k, d) :: rest) = fieldOr key decode absent rest := by
  rw [fieldOr, fieldOr, List.lookup_cons, beq_false_of_ne hother]

theorem fieldOr_absent {key : String} {decode : Datum → Except ShapeError α} {absent : α}
    {entries : List (String × Datum)} (hnew : key ∉ entries.map Prod.fst) :
    fieldOr key decode absent entries = .ok absent := by
  have hnone : entries.lookup key = none := by
    rw [← Option.not_isSome_iff_eq_none, Entries.lookup_isSome_iff_mem]
    exact hnew
  rw [fieldOr, hnone]

/-- A fold over entries with distinct keys, from what one entry in front means. -/
theorem foldlM_ok_iff {step : σ → String × Datum → Except ShapeError σ}
    {P : σ → List (String × Datum) → σ → Prop} (hnil : ∀ s r, s = r ↔ P s [] r)
    (hcons : ∀ s key d rest r, key ∉ rest.map Prod.fst →
      ((∃ mid, step s (key, d) = .ok mid ∧ P mid rest r) ↔ P s ((key, d) :: rest) r))
    {entries : List (String × Datum)} (hdistinct : (entries.map Prod.fst).Nodup) {s r : σ} :
    entries.foldlM step s = .ok r ↔ P s entries r := by
  induction entries generalizing s with
  | nil =>
    rw [← hnil]
    exact Except.ok.injEq s r ▸ Iff.rfl
  | cons e rest ih =>
    obtain ⟨hnew, hrest⟩ := List.nodup_cons.mp hdistinct
    rw [List.foldlM_cons, bind_eq_ok_iff, ← hcons s e.1 e.2 rest r hnew]
    exact exists_congr fun mid => and_congr_right fun _ => ih hrest

/-! ### Tables and lists of fields -/

theorem names_values {decode : Datum → Except ShapeError α} {entries : List (String × Datum)}
    {vs : List (String × α)} (h : values decode entries = .ok vs) :
    vs.map Prod.fst = entries.map Prod.fst := by
  induction entries generalizing vs with
  | nil =>
    cases h
    rfl
  | cons e rest ih =>
    obtain ⟨v, -, h⟩ := bind_eq_ok_iff.mp h
    obtain ⟨more, hmore, h⟩ := bind_eq_ok_iff.mp h
    cases h
    exact congrArg _ (ih hmore)

theorem exists_of_mem_values {decode : Datum → Except ShapeError α}
    {entries : List (String × Datum)} {vs : List (String × α)}
    (h : values decode entries = .ok vs) {v : String × α} (hv : v ∈ vs) :
    ∃ d, decode d = .ok v.2 := by
  induction entries generalizing vs with
  | nil =>
    cases h
    cases hv
  | cons e rest ih =>
    obtain ⟨first, hfirst, h⟩ := bind_eq_ok_iff.mp h
    obtain ⟨more, hmore, h⟩ := bind_eq_ok_iff.mp h
    cases h
    rcases List.mem_cons.mp hv with rfl | hv
    · exact ⟨e.2, hfirst⟩
    · exact ih hmore hv

/-- Every key of a table stands once, with a value that was read. -/
theorem of_table {decode : Datum → Except ShapeError α} {d : Datum} {vs : List (String × α)}
    (h : table decode d = .ok vs) :
    (vs.map Prod.fst).Nodup ∧ ∀ v ∈ vs, ∃ d', decode d' = .ok v.2 := by
  unfold table at h
  split at h
  · next entries =>
    cases hvalues : values decode entries with
    | error e =>
      rw [hvalues] at h
      cases h
    | ok all =>
      rw [hvalues] at h
      obtain rfl := Except.ok.inj h
      exact ⟨Entries.names_ofList_nodup all,
        fun v hv => exists_of_mem_values hvalues (Entries.mem_of_mem_ofList hv)⟩
  · cases h

/-- A table with no key twice is read entry by entry. -/
theorem table_eq (decode : Datum → Except ShapeError α) {entries : List (String × Datum)}
    (hdistinct : (entries.map Prod.fst).Nodup) :
    table decode (.table entries) = values decode entries := by
  rw [table]
  cases hvalues : values decode entries with
  | error e => rfl
  | ok vs =>
    rw [← names_values hvalues] at hdistinct
    exact congrArg Except.ok (Entries.ofList_eq hdistinct)

theorem repeated?_eq_none {fields keys : List String} (hdistinct : keys.Nodup) :
    repeated? fields keys = none := by
  refine List.find?_eq_none.mpr fun f _ => ?_
  have hone := List.nodup_iff_count.mp hdistinct f
  simp only [decide_eq_true_eq]
  omega

theorem count_of_repeated?_eq_none {fields keys : List String} {key : String}
    (hnone : repeated? fields keys = none) (hkey : key ∈ fields) : keys.count key ≤ 1 := by
  have hfew := List.find?_eq_none.mp hnone key hkey
  simp only [decide_eq_true_eq] at hfew
  omega

theorem names_zip_sublist (fields : List String) (items : List Datum) :
    ((fields.zip items).map Prod.fst).Sublist fields := by
  induction fields generalizing items with
  | nil => exact .slnil
  | cons f fields ih =>
    cases items with
    | nil => exact List.nil_sublist _
    | cons d items => exact (ih items).cons_cons f

/-! ### One field of a record -/

/-- The fields of a record, which is written as a table or as a list. -/
def entriesOf (fields : List String) : Datum → List (String × Datum)
  | .table entries => entries
  | .list items => fields.zip items
  | _ => []

section

variable {key : String} {decode : Datum → Except ShapeError α} (get : σ → α)
  {step : σ → String × Datum → Except ShapeError σ}
  (hkey : ∀ s d s', step s (key, d) = .ok s' → decode d = .ok (get s'))
  (hother : ∀ s k d s', k ≠ key → step s (k, d) = .ok s' → get s' = get s)

include hother in
theorem foldlM_other {entries : List (String × Datum)} (hnew : key ∉ entries.map Prod.fst)
    {s s' : σ} (hfold : entries.foldlM step s = .ok s') : get s' = get s := by
  induction entries generalizing s with
  | nil =>
    obtain rfl := Except.ok.inj hfold
    rfl
  | cons e rest ih =>
    rw [List.map_cons, List.mem_cons, not_or] at hnew
    rw [List.foldlM_cons, bind_eq_ok_iff] at hfold
    obtain ⟨mid, hmid, hrest⟩ := hfold
    rw [ih hnew.2 hrest, hother s e.1 e.2 mid (Ne.symm hnew.1) hmid]

include hkey hother in
/-- A key that does not stand twice gives what one part of the result is read from. -/
theorem foldlM_field {entries : List (String × Datum)}
    (hcount : (entries.map Prod.fst).count key ≤ 1) {s s' : σ}
    (hfold : entries.foldlM step s = .ok s') :
    fieldOr key decode (get s) entries = .ok (get s') := by
  induction entries generalizing s with
  | nil =>
    obtain rfl := Except.ok.inj hfold
    rfl
  | cons e rest ih =>
    obtain ⟨k, d⟩ := e
    rw [List.map_cons, List.count_cons] at hcount
    rw [List.foldlM_cons, bind_eq_ok_iff] at hfold
    obtain ⟨mid, hmid, hrest⟩ := hfold
    by_cases hhere : k = key
    · subst hhere
      rw [beq_self_eq_true, if_pos rfl] at hcount
      have hnew : k ∉ rest.map Prod.fst := List.count_eq_zero.mp (by omega)
      rw [fieldOr_here, foldlM_other get hother hnew hrest]
      exact hkey s d mid hmid
    · rw [fieldOr_other (Ne.symm hhere), ← hother s k d mid hhere hmid]
      exact ih (by omega) hrest

include hkey hother in
theorem record_field {name : String} {excess : Excess} {fields : List String}
    (hfields : fields.Nodup) (hmem : key ∈ fields) {start s : σ} {d : Datum}
    (hread : record name excess fields step start d = .ok s) :
    fieldOr key decode (get start) (entriesOf fields d) = .ok (get s) := by
  unfold record at hread
  split at hread
  · split at hread
    · cases hread
    · next hnone =>
      exact foldlM_field get hkey hother (count_of_repeated?_eq_none hnone hmem) hread
  · next items =>
    obtain ⟨mid, hmid, hend⟩ := bind_eq_ok_iff.mp hread
    split at hend
    · cases hend
    · obtain rfl := Except.ok.inj hend
      have hdistinct := hfields.sublist (names_zip_sublist fields items)
      exact foldlM_field get hkey hother (List.nodup_iff_count.mp hdistinct key) hmid
  · cases hread

end

end Shape

end SourceAudit
