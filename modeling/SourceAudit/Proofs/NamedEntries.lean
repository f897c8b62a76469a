/-
  SourceAudit/Proofs/NamedEntries.lean
  ====================================
  **Entries with distinct names.**

  Where no name stands twice, a look-up finds an entry in any order (`lookup_perm`), and
  putting the entries one after the other changes nothing (`ofList_eq`).  Putting them at
  their places among sorted names gives the same entries in increasing order
  (`putSorted_perm`, `putSorted_increasing`), and so a list of names can be sorted
  (`sortedNames_increasing`, `mem_sortedNames_iff`).
-/
import Mathlib.Data.List.Perm.Basic
import SourceAudit.Entries

namespace SourceAudit.Entries

variable {α : Type}

/-! ### Look-ups and puts -/

theorem lookup_eq_some_iff {entries : List (String × α)} (hdistinct : (entries.map Prod.fst).Nodup)
    {key : String} {value : α} : entries.lookup key = some value ↔ (key, value) ∈ entries :=
  ⟨mem_of_lookup, lookup_of_mem hdistinct⟩

/-- Entries are found in any order. -/
theorem lookup_perm {entries other : List (String × α)}
    (hdistinct : (entries.map Prod.fst).Nodup) (hperm : other.Perm entries) (key : String) :
    other.lookup key = entries.lookup key := by
  have hdistinct' := (hperm.map Prod.fst).nodup_iff.mpr hdistinct
  refine Option.ext fun value => ?_
  rw [lookup_eq_some_iff hdistinct, lookup_eq_some_iff hdistinct', hperm.mem_iff]

theorem lookup_mapValues {β : Type} (f : α → β) (key : String) (entries : List (String × α)) :
    (entries.map fun e => (e.1, f e.2)).lookup key = (entries.lookup key).map f := by
  induction entries with
  | nil => rfl
  | cons e rest ih =>
    rw [List.map_cons, List.lookup_cons, List.lookup_cons, ih]
    split <;> rfl

theorem put_new {name : String} (value : α) {entries : List (String × α)}
    (hnew : name ∉ entries.map Prod.fst) :
    put name value entries = entries ++ [(name, value)] := by
  induction entries with
  | nil => rfl
  | cons e rest ih =>
    obtain ⟨n, v⟩ := e
    rw [List.map_cons, List.mem_cons, not_or] at hnew
    rw [put, if_neg (Ne.symm hnew.1), ih hnew.2, List.cons_append]

theorem foldl_put {entries known : List (String × α)}
    (hdistinct : ((known ++ entries).map Prod.fst).Nodup) :
    entries.foldl (fun known e => put e.1 e.2 known) known = known ++ entries := by
  induction entries generalizing known with
  | nil => exact (List.append_nil _).symm
  | cons e rest ih =>
    rw [List.append_cons] at hdistinct ⊢
    have hnew : e.1 ∉ known.map Prod.fst := by
      rw [List.map_append, List.map_append, List.append_assoc, List.nodup_append] at hdistinct
      exact fun h => hdistinct.2.2 _ h _ List.mem_cons_self rfl
    rw [List.foldl_cons, put_new e.2 hnew, ih hdistinct]

/-- Distinct names stay where they are. -/
theorem ofList_eq {entries : List (String × α)} (hdistinct : (entries.map Prod.fst).Nodup) :
    ofList entries = entries :=
  foldl_put hdistinct

theorem mem_of_mem_put {name : String} {value : α} {entries : List (String × α)}
    {e : String × α} (he : e ∈ put name value entries) : e = (name, value) ∨ e ∈ entries := by
  induction entries with
  | nil => exact .inl (List.mem_singleton.mp he)
  | cons first rest ih =>
    obtain ⟨n, v⟩ := first
    rw [put] at he
    split at he
    · exact (List.mem_cons.mp he).imp_right (List.mem_cons_of_mem _)
    · rcases List.mem_cons.mp he with rfl | he
      · exact .inr List.mem_cons_self
      · exact (ih he).imp_right (List.mem_cons_of_mem _)

theorem mem_of_mem_ofList {entries : List (String × α)} {e : String × α}
    (he : e ∈ ofList entries) : e ∈ entries := by
  have hfold {entries known : List (String × α)}
      (he : e ∈ entries.foldl (fun known e => put e.1 e.2 known) known) :
      e ∈ known ∨ e ∈ entries := by
    induction entries generalizing known with
    | nil => exact .inl he
    | cons first rest ih =>
      rcases ih he with hput | hrest
      · rcases mem_of_mem_put hput with rfl | hknown
        · exact .inr List.mem_cons_self
        · exact .inl hknown
      · exact .inr (List.mem_cons_of_mem _ hrest)
  exact (hfold he).resolve_left List.not_mem_nil

/-- Entries that were put one after the other have distinct names. -/
theorem names_ofList_nodup (entries : List (String × α)) :
    ((ofList entries).map Prod.fst).Nodup := by
  have hfold (known : List (String × α)) (hknown : (known.map Prod.fst).Nodup) :
      ((entries.foldl (fun known e => put e.1 e.2 known) known).map Prod.fst).Nodup := by
    induction entries generalizing known with
    | nil => exact hknown
    | cons e rest ih => exact ih _ (names_put_nodup hknown)
  exact hfold [] List.nodup_nil

/-! ### Sorted names -/

/-- Names in strictly increasing order. -/
def Increasing (entries : List (String × α)) : Prop :=
  entries.Pairwise fun a b => a.1 < b.1

theorem putSorted_perm {name : String} (value : α) {entries : List (String × α)}
    (hnew : name ∉ entries.map Prod.fst) :
    (putSorted name value entries).Perm ((name, value) :: entries) := by
  induction entries with
  | nil => exact .refl _
  | cons e rest ih =>
    obtain ⟨n, v⟩ := e
    rw [List.map_cons, List.mem_cons, not_or] at hnew
    rw [putSorted, if_neg hnew.1]
    split
    · exact .refl _
    · exact ((ih hnew.2).cons _).trans (.swap _ _ _)

theorem mem_of_mem_putSorted {name : String} {value : α} {entries : List (String × α)}
    {e : String × α} (he : e ∈ putSorted name value entries) :
    e = (name, value) ∨ e ∈ entries := by
  induction entries with
  | nil => exact .inl (List.mem_singleton.mp he)
  | cons first rest ih =>
    obtain ⟨n, v⟩ := first
    rw [putSorted] at he
    split at he
    · exact (List.mem_cons.mp he).imp_right (List.mem_cons_of_mem _)
    · split at he
      · exact List.mem_cons.mp he
      · rcases List.mem_cons.mp he with rfl | he
        · exact .inr List.mem_cons_self
        · exact (ih he).imp_right (List.mem_cons_of_mem _)

theorem putSorted_increasing (name : String) (value : α) {entries : List (String × α)}
    (hsorted : Increasing entries) : Increasing (putSorted name value entries) := by
  induction entries with
  | nil => exact List.pairwise_singleton _ _
  | cons e rest ih =>
    obtain ⟨n, v⟩ := e
    obtain ⟨hfirst, hrest⟩ := List.pairwise_cons.mp hsorted
    rw [putSorted]
    split
    · next hsame =>
      subst hsame
      exact List.pairwise_cons.mpr ⟨hfirst, hrest⟩
    · next hother =>
      split
      · next hbefore =>
        refine List.pairwise_cons.mpr ⟨fun e he => ?_, hsorted⟩
        rcases List.mem_cons.mp he with rfl | he
        · exact hbefore
        · exact String.lt_trans hbefore (hfirst e he)
      · next hafter =>
        refine List.pairwise_cons.mpr ⟨fun e he => ?_, ih hrest⟩
        rcases mem_of_mem_putSorted he with rfl | he
        · exact Decidable.byContradiction fun hnot =>
            hother (String.le_antisymm (String.not_lt.mp hnot) (String.not_lt.mp hafter))
        · exact hfirst e he

theorem mem_names_putSorted {name n : String} {value : α} {entries : List (String × α)} :
    n ∈ (putSorted name value entries).map Prod.fst ↔ n = name ∨ n ∈ entries.map Prod.fst := by
  induction entries with
  | nil => simp [putSorted]
  | cons e rest ih =>
    obtain ⟨first, v⟩ := e
    rw [putSorted]
    split
    · next hsame => simp [hsame]
    · split
      · rw [List.map_cons, List.mem_cons]
      · rw [List.map_cons, List.mem_cons, ih, List.map_cons, List.mem_cons, or_left_comm]

theorem lookup_cons (first : String) (value : α) (rest : List (String × α)) (n : String) :
    ((first, value) :: rest).lookup n = if n = first then some value else rest.lookup n := by
  rw [List.lookup_cons]
  by_cases hfirst : n = first
  · rw [if_pos hfirst, beq_iff_eq.mpr hfirst]
  · rw [if_neg hfirst, beq_false_of_ne hfirst]

/-- A put value is found, and the other names have the values they had. -/
theorem lookup_putSorted {name n : String} {value : α} {entries : List (String × α)} :
    (putSorted name value entries).lookup n =
      if n = name then some value else entries.lookup n := by
  induction entries with
  | nil => exact lookup_cons ..
  | cons e rest ih =>
    obtain ⟨first, v⟩ := e
    rw [putSorted]
    split
    · next hfirst =>
      subst hfirst
      rw [lookup_cons, lookup_cons]
      split <;> rfl
    · next hother =>
      split
      · exact lookup_cons ..
      · rw [lookup_cons, ih, lookup_cons]
        by_cases hsame : n = name
        · subst hsame
          rw [if_neg hother, if_pos rfl, if_pos rfl]
        · rw [if_neg hsame, if_neg hsame]

theorem sortedNames_increasing (names : List String) :
    (sortedNames names).Pairwise (· < ·) := by
  have hfold {known : List (String × Unit)} (hknown : Increasing known) :
      Increasing (names.foldl (fun known name => putSorted name () known) known) := by
    induction names generalizing known with
    | nil => exact hknown
    | cons name rest ih => exact ih (putSorted_increasing name () hknown)
  exact List.pairwise_map.mpr (hfold List.Pairwise.nil)

theorem mem_sortedNames_iff {names : List String} {n : String} :
    n ∈ sortedNames names ↔ n ∈ names := by
  have hfold {known : List (String × Unit)} :
      n ∈ (names.foldl (fun known name => putSorted name () known) known).map Prod.fst ↔
        n ∈ names ∨ n ∈ known.map Prod.fst := by
    induction names generalizing known with
    | nil => simp
    | cons name rest ih =>
      rw [List.foldl_cons, ih, mem_names_putSorted, List.mem_cons, or_left_comm, or_assoc]
  rw [sortedNames, hfold]
  simp

/-- A name behind all others is put at the end. -/
theorem putSorted_last {name : String} (value : α) {entries : List (String × α)}
    (hlast : ∀ e ∈ entries, e.1 < name) :
    putSorted name value entries = entries ++ [(name, value)] := by
  induction entries with
  | nil => rfl
  | cons e rest ih =>
    obtain ⟨n, v⟩ := e
    obtain ⟨hn, hrest⟩ := List.forall_mem_cons.mp hlast
    have hne : name ≠ n := fun h => String.lt_irrefl n (h ▸ hn)
    rw [putSorted, if_neg hne, if_neg (String.lt_asymm hn), ih hrest, List.cons_append]

end SourceAudit.Entries
