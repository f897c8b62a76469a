/-
  SourceAudit/Proofs/CanonicalForm.lean
  =====================================
  **The canonical form of documents.**

  A JSON value has finite numbers only and no key twice in a table (`IsValue`).  Its
  canonical form has the same entries in every table, sorted by their keys
  (`canonicalEntries_perm`, `canonicalEntries_increasing`), and is its own canonical form
  (`canonical_canonical`).
-/
import SourceAudit.Proofs.Documents
import SourceAudit.Proofs.NamedEntries

namespace SourceAudit.Datum

/-- A value as a JSON document can hold it. -/
structure IsValue (d : Datum) : Prop where
  finite : ∀ x, Inside (.number (.real x)) d → x.isFinite = true
  distinct : ∀ entries, Inside (.table entries) d → (entries.map Prod.fst).Nodup

theorem IsValue.inside {d e : Datum} (hd : d.IsValue) (inside : Inside e d) : e.IsValue :=
  ⟨fun x inner => hd.finite x (inner.trans inside),
    fun entries inner => hd.distinct entries (inner.trans inside)⟩

theorem IsValue.canonical_number {n : Number} (hn : (Datum.number n).IsValue) :
    (Datum.number n).canonical = .number n := by
  cases n with
  | integer i => rfl
  | real x => rw [canonical, if_pos (hn.finite x .self)]

theorem canonicalItems_eq (items : List Datum) : canonicalItems items = items.map canonical := by
  induction items with
  | nil => rfl
  | cons d rest ih => rw [canonicalItems, ih, List.map_cons]

/-- The entries with their values in canonical form, where they stand. -/
def canonicalValues (entries : List (String × Datum)) : List (String × Datum) :=
  entries.map fun e => (e.1, e.2.canonical)

theorem names_canonicalValues (entries : List (String × Datum)) :
    (canonicalValues entries).map Prod.fst = entries.map Prod.fst := by
  simp [canonicalValues]

theorem canonicalEntries_perm_append {entries sorted : List (String × Datum)}
    (hdistinct : ((entries ++ sorted).map Prod.fst).Nodup) :
    (canonicalEntries entries sorted).Perm (canonicalValues entries ++ sorted) := by
  induction entries generalizing sorted with
  | nil => exact .refl _
  | cons e rest ih =>
    obtain ⟨key, d⟩ := e
    rw [List.cons_append, List.map_cons, List.map_append, List.nodup_cons] at hdistinct
    have hnew : key ∉ sorted.map Prod.fst := fun h =>
      hdistinct.1 (List.mem_append_right _ h)
    have hput := Entries.putSorted_perm d.canonical hnew
    have hdistinct' : ((rest ++ Entries.putSorted key d.canonical sorted).map Prod.fst).Nodup := by
      refine (((hput.append_left rest).trans List.perm_middle).map Prod.fst).nodup_iff.mpr ?_
      rwa [List.map_cons, List.map_append, List.nodup_cons]
    exact (ih hdistinct').trans ((hput.append_left _).trans List.perm_middle)

/-- The canonical form has the same entries, in the order of their keys. -/
theorem canonicalEntries_perm {entries : List (String × Datum)}
    (hdistinct : (entries.map Prod.fst).Nodup) :
    (canonicalEntries entries []).Perm (canonicalValues entries) := by
  rw [← List.append_nil entries] at hdistinct
  have hperm := canonicalEntries_perm_append hdistinct
  rwa [List.append_nil] at hperm

theorem canonicalEntries_increasing {sorted : List (String × Datum)}
    (hsorted : Entries.Increasing sorted) (entries : List (String × Datum)) :
    Entries.Increasing (canonicalEntries entries sorted) := by
  induction entries generalizing sorted with
  | nil => exact hsorted
  | cons e rest ih => exact ih (Entries.putSorted_increasing e.1 e.2.canonical hsorted)

theorem mem_of_mem_canonicalEntries {entries sorted : List (String × Datum)} {e : String × Datum}
    (he : e ∈ canonicalEntries entries sorted) :
    e ∈ sorted ∨ ∃ f ∈ entries, e = (f.1, f.2.canonical) := by
  induction entries generalizing sorted with
  | nil => exact .inl he
  | cons f rest ih =>
    rcases ih he with he | ⟨g, hg, rfl⟩
    · rcases Entries.mem_of_mem_putSorted he with rfl | he
      · exact .inr ⟨f, List.mem_cons_self, rfl⟩
      · exact .inl he
    · exact .inr ⟨g, List.mem_cons_of_mem _ hg, rfl⟩

/-- Sorted entries with canonical values stay as they are. -/
theorem canonicalEntries_eq {entries sorted : List (String × Datum)}
    (hsorted : Entries.Increasing (sorted ++ entries))
    (hvalues : ∀ e ∈ entries, e.2.canonical = e.2) :
    canonicalEntries entries sorted = sorted ++ entries := by
  induction entries generalizing sorted with
  | nil => exact (List.append_nil _).symm
  | cons e rest ih =>
    obtain ⟨key, d⟩ := e
    obtain ⟨hd, hrest⟩ := List.forall_mem_cons.mp hvalues
    have hlast : ∀ e ∈ sorted, e.1 < key := fun e he =>
      (List.pairwise_append.mp hsorted).2.2 e he (key, d) List.mem_cons_self
    rw [canonicalEntries, hd, Entries.putSorted_last d hlast]
    rw [List.append_cons] at hsorted
    exact (ih hsorted hrest).trans (List.append_cons sorted (key, d) rest).symm

theorem canonical_canonical (d : Datum) : d.canonical.canonical = d.canonical := by
  induction d with
  | null => rfl
  | bool b => rfl
  | number n =>
    cases n with
    | integer i => rfl
    | real x =>
      rw [canonical]
      split
      · next hfinite => rw [canonical, if_pos hfinite]
      · rfl
  | text s => rfl
  | list items ih =>
    rw [canonical, canonical, canonicalItems_eq, canonicalItems_eq, List.map_map]
    exact congrArg list (List.map_congr_left ih)
  | table entries ih =>
    have hvalues : ∀ e ∈ canonicalEntries entries [], e.2.canonical = e.2 := by
      intro e he
      rcases mem_of_mem_canonicalEntries he with he | ⟨f, hf, rfl⟩
      · cases he
      · exact ih f hf
    rw [canonical, canonical,
      canonicalEntries_eq (canonicalEntries_increasing .nil entries) hvalues]
    rfl

end SourceAudit.Datum
