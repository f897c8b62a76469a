/-
  SourceAudit/Proofs/ManifestNames.lean
  =====================================
  **The packages a manifest lists.**

  A document lists a name in a section when it is a mapping with that section and the section
  is a mapping with that name (`Manifest.Lists`).  A manifest that can be read has either
  section at most once, and each field of it is read by one step of a fold, so that a step for
  another field leaves the names alone (`Manifest.IsSection`).  The names that are read are
  those the document lists, sorted, each once (`Manifest.IsSection.names`).
-/
import SourceAudit.Manifest
import SourceAudit.Proofs.NamedEntries
import Mathlib.Data.List.Nodup

namespace SourceAudit

/-! ### Lists -/

/-- Every item is read, and the results are what the items give. -/
theorem of_mapM_eq_some {α β : Type} {f : α → Option β} {as : List α} {bs : List β}
    (h : as.mapM f = some bs) :
    (∀ a ∈ as, ∃ b, f a = some b) ∧ ∀ b, b ∈ bs ↔ ∃ a ∈ as, f a = some b := by
  induction as generalizing bs with
  | nil =>
    obtain rfl := Option.some.inj h
    simp
  | cons a rest ih =>
    rw [List.mapM_cons] at h
    obtain ⟨first, hfirst, h⟩ := Option.bind_eq_some_iff.mp h
    obtain ⟨more, hmore, h⟩ := Option.bind_eq_some_iff.mp h
    obtain rfl := Option.some.inj h
    obtain ⟨hread, hmem⟩ := ih hmore
    refine ⟨List.forall_mem_cons.mpr ⟨⟨first, hfirst⟩, hread⟩, fun b => ?_⟩
    rw [List.mem_cons, hmem]
    constructor
    · rintro (rfl | ⟨a', ha', hb⟩)
      · exact ⟨a, List.mem_cons_self, hfirst⟩
      · exact ⟨a', List.mem_cons_of_mem a ha', hb⟩
    · rintro ⟨a', ha', hb⟩
      rcases List.mem_cons.mp ha' with rfl | ha'
      · exact .inl (Option.some.inj (hb.symm.trans hfirst))
      · exact .inr ⟨a', ha', hb⟩

theorem nodup_eraseDups : (l : List String) → l.eraseDups.Nodup
  | [] => List.nodup_nil
  | a :: rest => by
    rw [List.eraseDups_cons, List.nodup_cons]
    refine ⟨?_, nodup_eraseDups (rest.filter fun b => !b == a)⟩
    rw [List.mem_eraseDups, List.mem_filter]
    rintro ⟨-, hother⟩
    simp at hother
termination_by l => l.length
decreasing_by exact Nat.lt_succ_of_le (List.length_filter_le _ _)

/-- A list that loses nothing with its repetitions has none. -/
theorem nodup_of_length_eraseDups {l : List String} (h : l.eraseDups.length = l.length) :
    l.Nodup := by
  have hsub : l.eraseDups ⊆ l := fun a ha => List.mem_eraseDups.mp ha
  have hperm := (List.subperm_of_subset (nodup_eraseDups l) hsub).perm_of_length_le
    (Nat.le_of_eq h.symm)
  exact hperm.nodup_iff.mp (nodup_eraseDups l)

/-! ### Mappings -/

namespace Yaml.Node

/-- A mapping gives a value to a key. -/
def Holds (n : Node) (key : String) (value : Node) : Prop :=
  ∃ type entries k, n = .mapping type entries ∧ (k, value) ∈ entries ∧ k.string? = some key

theorem holds_mapping {type : Option (List Char)} {entries : List (Node × Node)} {key : String}
    {value : Node} : (mapping type entries).Holds key value ↔
      ∃ k, (k, value) ∈ entries ∧ k.string? = some key := by
  constructor
  · rintro ⟨type, entries, k, hmapping, hk⟩
    cases hmapping
    exact ⟨k, hk⟩
  · rintro ⟨k, hk⟩
    exact ⟨type, entries, k, rfl, hk⟩

/-- Only a text can stand for no value. -/
theorem not_holds_of_given? {n : Node} (h : n.given? = some none) (key : String) (value : Node) :
    ¬ n.Holds key value := by
  rintro ⟨type, entries, k, rfl, -⟩
  cases h

/-- What is left of a text is a text. -/
theorem eq_mapping_of_given? {n : Node} {type : Option (List Char)}
    {entries : List (Node × Node)} (h : n.given? = some (some (.mapping type entries))) :
    n = .mapping type entries := by
  cases n with
  | text type isPlain s =>
    cases isPlain <;> cases type <;> simp [given?] at h
    all_goals split_ifs at h <;> simp at h
  | sequence => cases h
  | mapping =>
    cases h
    rfl
  | within => cases h

end Yaml.Node

namespace Manifest

open Yaml (Node)

/-- A text lists a name in a section. -/
def Lists (s sectionName name : String) : Prop :=
  ∃ document listing value, Yaml.read? s.toList = some (some document) ∧
    Node.Holds document sectionName listing ∧ Node.Holds listing name value

/-! ### Sections -/

theorem names_of_sectionNames? {n : Node} {names : List String}
    (h : sectionNames? n = some names) :
    names.Pairwise (· < ·) ∧ ∀ name, name ∈ names ↔ ∃ value, n.Holds name value := by
  rw [sectionNames?] at h
  obtain ⟨given, hgiven, h⟩ := Option.bind_eq_some_iff.mp h
  match given with
  | none =>
    obtain rfl := Option.some.inj h
    refine ⟨List.Pairwise.nil, fun name => ?_⟩
    simp [Node.not_holds_of_given? hgiven]
  | some (.mapping type entries) =>
    obtain ⟨keys, hkeys, h⟩ := Option.bind_eq_some_iff.mp h
    obtain rfl := Option.some.inj h
    obtain rfl := Node.eq_mapping_of_given? hgiven
    obtain ⟨hread, hmem⟩ := of_mapM_eq_some hkeys
    refine ⟨Entries.sortedNames_increasing keys, fun name => ?_⟩
    rw [Entries.mem_sortedNames_iff, hmem]
    constructor
    · rintro ⟨⟨k, value⟩, he, hname⟩
      obtain ⟨key, hkey, hname⟩ := Option.bind_eq_some_iff.mp hname
      obtain ⟨-, -, hname⟩ := Option.bind_eq_some_iff.mp hname
      obtain rfl := Option.some.inj hname
      exact ⟨value, Node.holds_mapping.mpr ⟨k, he, hkey⟩⟩
    · rintro ⟨value, hholds⟩
      obtain ⟨k, he, hkey⟩ := Node.holds_mapping.mp hholds
      -- the value is complete, since all entries were read
      obtain ⟨other, hother⟩ := hread _ he
      obtain ⟨key, hkey', hother⟩ := Option.bind_eq_some_iff.mp hother
      obtain ⟨datum, hdatum, -⟩ := Option.bind_eq_some_iff.mp hother
      refine ⟨(k, value), he, ?_⟩
      rw [Option.bind_eq_bind, hkey, Option.bind_some, hdatum]
      rfl
  | some (.text ..) => cases h
  | some (.sequence ..) => cases h
  | some .within => cases h

theorem mem_fields_iff {entries : List (Node × Node)} {fields : List (String × Node)}
    (h : (entries.mapM fun e => do return (← e.1.string?, e.2)) = some fields) {key : String}
    {value : Node} : (key, value) ∈ fields ↔ ∃ k, (k, value) ∈ entries ∧ k.string? = some key := by
  rw [(of_mapM_eq_some h).2]
  constructor
  · rintro ⟨e, he, hread⟩
    obtain ⟨k, hk, hpair⟩ := Option.bind_eq_some_iff.mp hread
    cases hpair
    exact ⟨e.1, he, hk⟩
  · rintro ⟨k, he, hk⟩
    refine ⟨(k, value), he, ?_⟩
    rw [Option.bind_eq_bind, hk]
    rfl

/-- What reading one field can do. -/
theorem field?_cases {m m' : Manifest} {key : String} {value : Node}
    (h : m.field? key value = some m') :
    (∃ name, key = "name" ∧ m' = { m with name := name }) ∨
    (∃ names, key = "dependencies" ∧ sectionNames? value = some names ∧
      m' = { m with dependencies := names }) ∨
    (∃ names, key = "dev_dependencies" ∧ sectionNames? value = some names ∧
      m' = { m with devDependencies := names }) ∨
    (key ∉ ["name", "dependencies", "dev_dependencies"] ∧ m' = m) := by
  rw [field?] at h
  split at h
  · next hkey =>
    obtain ⟨name, -, rfl⟩ := Option.map_eq_some_iff.mp h
    exact .inl ⟨name, hkey, rfl⟩
  · split at h
    · next hkey =>
      obtain ⟨names, hnames, rfl⟩ := Option.map_eq_some_iff.mp h
      exact .inr (.inl ⟨names, hkey, hnames, rfl⟩)
    · split at h
      · next hkey =>
        obtain ⟨names, hnames, rfl⟩ := Option.map_eq_some_iff.mp h
        exact .inr (.inr (.inl ⟨names, hkey, hnames, rfl⟩))
      · obtain rfl := Option.some.inj h
        exact .inr (.inr (.inr ⟨by simp [*], rfl⟩))

/-- A list of names in a manifest that is read from the section with a given key. -/
structure IsSection (key : String) (get : Manifest → List String) : Prop where
  known : key ∈ ["name", "dependencies", "dev_dependencies"]
  absent : get empty = []
  here : ∀ {m m' : Manifest} {value : Node}, m.field? key value = some m' →
    sectionNames? value = some (get m')
  elsewhere : ∀ {m m' : Manifest} {other : String} {value : Node}, other ≠ key →
    m.field? other value = some m' → get m' = get m

theorem dependencies_isSection : IsSection "dependencies" dependencies where
  known := by decide
  absent := rfl
  here := by
    intro m m' value h
    rcases field?_cases h with ⟨_, hkey, -⟩ | ⟨names, -, hnames, rfl⟩ | ⟨_, hkey, -⟩ | ⟨hkey, -⟩
    · exact absurd hkey (by decide)
    · exact hnames
    · exact absurd hkey (by decide)
    · exact absurd (by decide) hkey
  elsewhere := by
    intro m m' other value hother h
    rcases field?_cases h with ⟨_, -, rfl⟩ | ⟨_, hkey, -⟩ | ⟨_, -, -, rfl⟩ | ⟨-, rfl⟩
    · rfl
    · exact absurd hkey hother
    · rfl
    · rfl

theorem devDependencies_isSection : IsSection "dev_dependencies" devDependencies where
  known := by decide
  absent := rfl
  here := by
    intro m m' value h
    rcases field?_cases h with ⟨_, hkey, -⟩ | ⟨_, hkey, -⟩ | ⟨names, -, hnames, rfl⟩ | ⟨hkey, -⟩
    · exact absurd hkey (by decide)
    · exact absurd hkey (by decide)
    · exact hnames
    · exact absurd (by decide) hkey
  elsewhere := by
    intro m m' other value hother h
    rcases field?_cases h with ⟨_, -, rfl⟩ | ⟨_, -, -, rfl⟩ | ⟨_, hkey, -⟩ | ⟨-, rfl⟩
    · rfl
    · rfl
    · exact absurd hkey hother
    · rfl

namespace IsSection

variable {key : String} {get : Manifest → List String} (hsection : IsSection key get)

include hsection

theorem foldlM_elsewhere {fields : List (String × Node)} {m m' : Manifest}
    (hfold : fields.foldlM (fun m e => m.field? e.1 e.2) m = some m')
    (hnone : key ∉ fields.map Prod.fst) : get m' = get m := by
  induction fields generalizing m with
  | nil =>
    obtain rfl := Option.some.inj hfold
    rfl
  | cons e rest ih =>
    rw [List.map_cons, List.mem_cons, not_or] at hnone
    rw [List.foldlM_cons] at hfold
    obtain ⟨mid, hmid, hfold⟩ := Option.bind_eq_some_iff.mp hfold
    rw [ih hfold hnone.2, hsection.elsewhere (Ne.symm hnone.1) hmid]

/-- The only field with the key decides. -/
theorem foldlM_here {fields : List (String × Node)} {m m' : Manifest} {value : Node}
    (hfold : fields.foldlM (fun m e => m.field? e.1 e.2) m = some m')
    (honce : (fields.map Prod.fst).count key ≤ 1) (hvalue : (key, value) ∈ fields) :
    sectionNames? value = some (get m') := by
  induction fields generalizing m with
  | nil => simp at hvalue
  | cons e rest ih =>
    rw [List.foldlM_cons] at hfold
    obtain ⟨mid, hmid, hrest⟩ := Option.bind_eq_some_iff.mp hfold
    rw [List.map_cons, List.count_cons] at honce
    rcases List.mem_cons.mp hvalue with rfl | hvalue
    · have hnone : key ∉ rest.map Prod.fst := by
        rw [← List.count_eq_zero]
        simpa using honce
      rw [hsection.foldlM_elsewhere hrest hnone]
      exact hsection.here hmid
    · exact ih hrest (Nat.le_trans (Nat.le_add_right _ _) honce) hvalue

theorem names_of_fields {fields : List (String × Node)} {m : Manifest}
    (hfold : fields.foldlM (fun m e => m.field? e.1 e.2) empty = some m)
    (honce : (fields.map Prod.fst).count key ≤ 1) :
    (get m).Pairwise (· < ·) ∧
      ∀ name, name ∈ get m ↔
        ∃ listing value, (key, listing) ∈ fields ∧ listing.Holds name value := by
  have hhere (listing : Node) (hlisting : (key, listing) ∈ fields) :=
    names_of_sectionNames? (hsection.foldlM_here hfold honce hlisting)
  by_cases hkey : key ∈ fields.map Prod.fst
  · obtain ⟨⟨_, listing⟩, hlisting, rfl⟩ := List.mem_map.mp hkey
    refine ⟨(hhere listing hlisting).1, fun name => ?_⟩
    constructor
    · intro hname
      obtain ⟨value, hvalue⟩ := ((hhere listing hlisting).2 name).mp hname
      exact ⟨listing, value, hlisting, hvalue⟩
    · rintro ⟨other, value, hother, hvalue⟩
      exact ((hhere other hother).2 name).mpr ⟨value, hvalue⟩
  · rw [hsection.foldlM_elsewhere hfold hkey, hsection.absent]
    refine ⟨List.Pairwise.nil, fun name => ⟨fun h => by simp at h, ?_⟩⟩
    rintro ⟨listing, value, hlisting, -⟩
    exact absurd (List.mem_map_of_mem hlisting) hkey

theorem names_of_ofNode? {n : Node} {m : Manifest} (h : ofNode? n = some m) :
    (get m).Pairwise (· < ·) ∧
      ∀ name, name ∈ get m ↔ ∃ listing value, n.Holds key listing ∧ listing.Holds name value := by
  rw [ofNode?] at h
  obtain ⟨given, hgiven, hbody⟩ := Option.bind_eq_some_iff.mp h
  match given with
  | none =>
    obtain rfl := Option.some.inj hbody
    rw [hsection.absent]
    refine ⟨List.Pairwise.nil, fun name => ?_⟩
    simp [Node.not_holds_of_given? hgiven]
  | some (.mapping type entries) =>
    obtain rfl := Node.eq_mapping_of_given? hgiven
    obtain ⟨fields, hfields, hfold⟩ := Option.bind_eq_some_iff.mp hbody
    dsimp only at hfold
    split at hfold
    · cases hfold
    · next hlength =>
      have honce : (fields.map Prod.fst).count key ≤ 1 := by
        have hnodup := nodup_of_length_eraseDups (not_not.mp hlength)
        have hcount := List.nodup_iff_count_le_one.mp hnodup key
        rwa [List.count_filter (by simpa using hsection.known)] at hcount
      obtain ⟨hsorted, hnames⟩ := hsection.names_of_fields hfold honce
      refine ⟨hsorted, fun name => (hnames name).trans ?_⟩
      simp only [mem_fields_iff hfields, Node.holds_mapping]
  | some (.text ..) => cases hbody
  | some (.sequence ..) => cases hbody
  | some .within => cases hbody

/-- **Sections.**  The names that are read of a section are those it lists, in order. -/
theorem names {s : String} {m : Manifest} (h : ofText? s = some m) :
    (get m).Pairwise (· < ·) ∧ ∀ name, name ∈ get m ↔ Lists s key name := by
  rw [ofText?] at h
  obtain ⟨document, hdocument, hbody⟩ := Option.bind_eq_some_iff.mp h
  cases document with
  | none =>
    obtain rfl := Option.some.inj hbody
    rw [hsection.absent]
    refine ⟨List.Pairwise.nil, fun name => ?_⟩
    simp [Lists, hdocument]
  | some n =>
    obtain ⟨hsorted, hnames⟩ := hsection.names_of_ofNode? hbody
    refine ⟨hsorted, fun name => (hnames name).trans ?_⟩
    simp [Lists, hdocument]

end IsSection

end Manifest

end SourceAudit
