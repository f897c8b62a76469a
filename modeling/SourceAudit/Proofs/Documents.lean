/-
  SourceAudit/Proofs/Documents.lean
  =================================
  **Induction on documents.**

  A property of all documents is proved for a list from its items and for a table from the
  values of its entries.  `Inside` names the values a document is made of, and `depth` is
  the number of lists and tables around the innermost one.
-/
import SourceAudit.Datum

namespace SourceAudit.Datum

/-- A property passes from the items to a list and from the values to a table. -/
@[elab_as_elim, induction_eliminator]
theorem induction {P : Datum → Prop} (null : P .null) (bool : ∀ b, P (.bool b))
    (number : ∀ n, P (.number n)) (text : ∀ s, P (.text s))
    (list : ∀ items, (∀ d ∈ items, P d) → P (.list items))
    (table : ∀ entries, (∀ e ∈ entries, P e.2) → P (.table entries)) (d : Datum) : P d :=
  @Datum.rec P (fun items => ∀ d ∈ items, P d) (fun entries => ∀ e ∈ entries, P e.2)
    (fun e => P e.2) null bool number text list table
    (List.forall_mem_nil _) (fun _ _ hd hrest => List.forall_mem_cons.mpr ⟨hd, hrest⟩)
    (List.forall_mem_nil _) (fun _ _ he hrest => List.forall_mem_cons.mpr ⟨he, hrest⟩)
    (fun _ _ hd => hd) d

/-- The value itself or one of the values it is made of. -/
inductive Inside (d : Datum) : Datum → Prop where
  | self : Inside d d
  | item {e : Datum} {items : List Datum} (hitem : e ∈ items) (inside : Inside d e) :
      Inside d (.list items)
  | entry {e : String × Datum} {entries : List (String × Datum)} (hentry : e ∈ entries)
      (inside : Inside d e.2) : Inside d (.table entries)

theorem Inside.trans {d e f : Datum} (inner : Inside d e) (outer : Inside e f) : Inside d f := by
  induction outer with
  | self => exact inner
  | item hitem _ ih => exact .item hitem ih
  | entry hentry _ ih => exact .entry hentry ih

/-- Inside a scalar there is nothing but itself. -/
theorem inside_scalar_iff {d e : Datum} (hlist : ∀ items, e ≠ .list items)
    (htable : ∀ entries, e ≠ .table entries) : Inside d e ↔ d = e := by
  constructor
  · intro inside
    cases inside with
    | self => rfl
    | item => exact (hlist _ rfl).elim
    | entry => exact (htable _ rfl).elim
  · rintro rfl
    exact .self

@[simp]
theorem inside_null_iff {d : Datum} : Inside d .null ↔ d = .null :=
  inside_scalar_iff (by simp) (by simp)

@[simp]
theorem inside_bool_iff {d : Datum} {b : Bool} : Inside d (.bool b) ↔ d = .bool b :=
  inside_scalar_iff (by simp) (by simp)

@[simp]
theorem inside_text_iff {d : Datum} {s : String} : Inside d (.text s) ↔ d = .text s :=
  inside_scalar_iff (by simp) (by simp)

@[simp]
theorem inside_number_iff {d : Datum} {n : Number} : Inside d (.number n) ↔ d = .number n :=
  inside_scalar_iff (by simp) (by simp)

@[simp]
theorem inside_list_iff {d : Datum} {items : List Datum} :
    Inside d (.list items) ↔ d = .list items ∨ ∃ e ∈ items, Inside d e := by
  constructor
  · rintro (_ | ⟨hitem, inside⟩)
    · exact .inl rfl
    · exact .inr ⟨_, hitem, inside⟩
  · rintro (rfl | ⟨e, hitem, inside⟩)
    · exact .self
    · exact .item hitem inside

@[simp]
theorem inside_table_iff {d : Datum} {entries : List (String × Datum)} :
    Inside d (.table entries) ↔ d = .table entries ∨ ∃ e ∈ entries, Inside d e.2 := by
  constructor
  · rintro (_ | _ | ⟨hentry, inside⟩)
    · exact .inl rfl
    · exact .inr ⟨_, hentry, inside⟩
  · rintro (rfl | ⟨e, hentry, inside⟩)
    · exact .self
    · exact .entry hentry inside

mutual

/-- The lists and tables around the innermost value. -/
def depth : Datum → Nat
  | .null | .bool _ | .number _ | .text _ => 0
  | .list items => depthItems items + 1
  | .table entries => depthEntries entries + 1

def depthItems : List Datum → Nat
  | [] => 0
  | d :: rest => max (depth d) (depthItems rest)

def depthEntries : List (String × Datum) → Nat
  | [] => 0
  | (_, d) :: rest => max (depth d) (depthEntries rest)

end

theorem depthItems_le_iff {n : Nat} {items : List Datum} :
    depthItems items ≤ n ↔ ∀ d ∈ items, d.depth ≤ n := by
  induction items with
  | nil => simp [depthItems]
  | cons d rest ih => rw [depthItems, Nat.max_le, ih, List.forall_mem_cons]

theorem depthEntries_le_iff {n : Nat} {entries : List (String × Datum)} :
    depthEntries entries ≤ n ↔ ∀ e ∈ entries, e.2.depth ≤ n := by
  induction entries with
  | nil => simp [depthEntries]
  | cons e rest ih => rw [depthEntries, Nat.max_le, ih, List.forall_mem_cons]

theorem depthItems_reverse (items : List Datum) : depthItems items.reverse = depthItems items := by
  refine Nat.le_antisymm (depthItems_le_iff.mpr fun d hd => ?_)
    (depthItems_le_iff.mpr fun d hd => ?_)
  · exact depthItems_le_iff.mp (Nat.le_refl _) d (List.mem_reverse.mp hd)
  · exact depthItems_le_iff.mp (Nat.le_refl _) d (List.mem_reverse.mpr hd)

theorem depthEntries_reverse (entries : List (String × Datum)) :
    depthEntries entries.reverse = depthEntries entries := by
  refine Nat.le_antisymm (depthEntries_le_iff.mpr fun e he => ?_)
    (depthEntries_le_iff.mpr fun e he => ?_)
  · exact depthEntries_le_iff.mp (Nat.le_refl _) e (List.mem_reverse.mp he)
  · exact depthEntries_le_iff.mp (Nat.le_refl _) e (List.mem_reverse.mpr he)

end SourceAudit.Datum
