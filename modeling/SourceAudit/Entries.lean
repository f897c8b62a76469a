/-
  SourceAudit/Entries.lean
  ========================
  **Named entries in a given order.**

  A list of named values in which a name stands once.  A value put under a new name
  goes to the end (`put`) or to its place among sorted names (`putSorted`); under a
  known name it replaces the value where that stands, which the new value may be
  computed from (`changeSorted`).
-/

namespace SourceAudit.Entries

/-- Replaces the value of a name where it stands, or adds the name at the end. -/
def put {α : Type} (name : String) (value : α) : List (String × α) → List (String × α)
  | [] => [(name, value)]
  | (n, v) :: rest => if n = name then (name, value) :: rest else (n, v) :: put name value rest

/-- Replaces the value of a name, or adds the name at its place among sorted ones. -/
def putSorted {α : Type} (name : String) (value : α) : List (String × α) → List (String × α)
  | [] => [(name, value)]
  | (n, v) :: rest =>
    if name = n then (name, value) :: rest
    else if name < n then (name, value) :: (n, v) :: rest
    else (n, v) :: putSorted name value rest

/-- Changes the value of a name, or of a default put at its place among sorted names. -/
def changeSorted {α : Type} (name : String) (default : α) (change : α → α)
    (entries : List (String × α)) : List (String × α) :=
  putSorted name (change ((entries.lookup name).getD default)) entries

/-- Entries read in order; the last value of a name counts, at its first place. -/
def ofList {α : Type} (entries : List (String × α)) : List (String × α) :=
  entries.foldl (fun known e => put e.1 e.2 known) []

/-- The distinct names of a list, sorted. -/
def sortedNames (names : List String) : List String :=
  (names.foldl (fun known name => putSorted name () known) []).map Prod.fst

theorem mem_of_lookup {κ α : Type} [DecidableEq κ] {entries : List (κ × α)} {key : κ} {value : α}
    (hfound : entries.lookup key = some value) : (key, value) ∈ entries := by
  obtain ⟨front, back, rfl, -⟩ := List.lookup_eq_some_iff.mp hfound
  simp

theorem lookup_of_mem {κ α : Type} [DecidableEq κ] {entries : List (κ × α)} {key : κ} {value : α}
    (hnodup : (entries.map Prod.fst).Nodup) (hmem : (key, value) ∈ entries) :
    entries.lookup key = some value := by
  induction entries with
  | nil => simp at hmem
  | cons e rest ih =>
    obtain ⟨hfresh, hnodup⟩ := List.nodup_cons.mp hnodup
    rcases List.mem_cons.mp hmem with rfl | hmem
    · simp
    · have hother : key ≠ e.1 := by
        rintro rfl
        exact hfresh (List.mem_map.mpr ⟨(e.1, value), hmem, rfl⟩)
      rw [List.lookup_cons, beq_false_of_ne hother]
      exact ih hnodup hmem

theorem lookup_isSome_iff_mem {κ α : Type} [DecidableEq κ] {entries : List (κ × α)} {key : κ} :
    (entries.lookup key).isSome ↔ key ∈ entries.map Prod.fst := by
  rw [List.lookup_isSome_iff, List.mem_map]
  exact exists_congr fun _ => and_congr_right fun _ => beq_iff_eq.trans eq_comm

/-- A known name keeps its place and a new one goes to the end. -/
theorem names_put {α : Type} (name : String) (value : α) (entries : List (String × α)) :
    (put name value entries).map Prod.fst =
      if name ∈ entries.map Prod.fst then entries.map Prod.fst
      else entries.map Prod.fst ++ [name] := by
  induction entries with
  | nil => rfl
  | cons e rest ih =>
    obtain ⟨n, v⟩ := e
    by_cases hsame : n = name
    · simp [put, hsame]
    · rw [put, if_neg hsame, List.map_cons, ih]
      by_cases hknown : name ∈ rest.map Prod.fst
      · simp only [hknown, List.map_cons, List.mem_cons, or_true, if_true]
      · have hnew : name ∉ ((n, v) :: rest).map Prod.fst := by
          simpa [Ne.symm hsame] using hknown
        rw [if_neg hknown, if_neg hnew]
        rfl

theorem names_put_nodup {α : Type} {name : String} {value : α} {entries : List (String × α)}
    (hnodup : (entries.map Prod.fst).Nodup) : ((put name value entries).map Prod.fst).Nodup := by
  rw [names_put]
  split
  · exact hnodup
  · next hnew =>
    refine List.nodup_append.mpr ⟨hnodup, by simp, fun n hn m hm hsame => ?_⟩
    rw [hsame, List.mem_singleton.mp hm] at hn
    exact hnew hn

end SourceAudit.Entries
