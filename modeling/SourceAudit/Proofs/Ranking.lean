/-
  SourceAudit/Proofs/Ranking.lean
  ===============================
  **Which violations a cap keeps.**

  `Violation.capped` sorts the positions of a list by weight and drops the first of them.
  What it keeps can be said without sorting: the entry at a position *outranks* another
  one when it is heavier, or as heavy and further back, and a cap keeps the entries that
  fewer than `limit` others outrank.

    * `mem_take_iff_countP`: where a sorted list is cut, said by counting;
    * `byWeight_sorted`: sorting by weight is sorting by rank, because equally heavy
      entries stay in order (`byWeight_filter_tied`);
    * `capped_map`: the cap by rank.  It holds for any positions that increase, so a list may
      be filtered first and still be spoken of by its old positions, and for entries written
      in any way that keeps their magnitudes, so that equal ones can be told apart.
-/
import SourceAudit.Violation

namespace SourceAudit.Violation

/-- An entry of a list with its position. -/
abbrev Placed := Violation × Nat

/-! ### Weights -/

theorem lighter_total (a b : Option Binary64) : lighter a b = true ∨ lighter b a = true := by
  cases a with
  | none => exact .inl rfl
  | some x =>
    cases b with
    | none => exact .inr rfl
    | some y => simpa [lighter] using Int.le_total x.totalRank y.totalRank

theorem lighter_trans {a b c : Option Binary64} (hab : lighter a b = true)
    (hbc : lighter b c = true) : lighter a c = true := by
  cases a with
  | none => rfl
  | some x =>
    cases b with
    | none => cases hab
    | some y =>
      cases c with
      | none => cases hbc
      | some z =>
        simp only [lighter, decide_eq_true_eq] at hab hbc ⊢
        exact Int.le_trans hab hbc

def tied (a b : Placed) : Bool :=
  lighter a.1.magnitude b.1.magnitude && lighter b.1.magnitude a.1.magnitude

/-- `a` is heavier than `b`, or as heavy and further back. -/
def outranks (a b : Placed) : Bool :=
  !lighter a.1.magnitude b.1.magnitude || (tied a b && decide (b.2 < a.2))

theorem outranks_asymm {a b : Placed} (hab : outranks a b = true) : outranks b a = false := by
  have htotal := lighter_total a.1.magnitude b.1.magnitude
  cases hl : lighter a.1.magnitude b.1.magnitude <;>
    cases hr : lighter b.1.magnitude a.1.magnitude <;>
    simp [outranks, tied, hl, hr] at hab htotal ⊢
  omega

/-! ### Where a sorted list is cut -/

theorem mem_take_iff_length_lt {α : Type} {front back : List α} {x : α} (hfirst : x ∉ front)
    {k : Nat} : x ∈ (front ++ x :: back).take k ↔ front.length < k := by
  constructor
  · intro hmem
    rcases Nat.lt_or_ge front.length k with hlt | hle
    · exact hlt
    · rw [List.take_append_of_le_length hle] at hmem
      exact absurd (List.mem_of_mem_take hmem) hfirst
  · intro hlt
    rw [List.take_append, List.mem_append]
    obtain ⟨n, hn⟩ := Nat.exists_eq_add_of_lt hlt
    refine .inr ?_
    rw [show k - front.length = n + 1 by omega, List.take_succ_cons]
    exact List.mem_cons_self ..

/-- In a list that stands in rank order, lowest first, an entry is among the first `k` when
    all but `k` entries, or more, outrank it. -/
theorem mem_take_iff_countP {α : Type} {above : α → α → Bool} {l : List α}
    (hsorted : l.Pairwise fun x y => above y x = true)
    (hasymm : ∀ x y, above x y = true → above y x = false) {k : Nat} (hk : k ≤ l.length) {x : α}
    (hx : x ∈ l) : x ∈ l.take k ↔ l.length - k ≤ l.countP (above · x) := by
  obtain ⟨front, back, rfl⟩ := List.append_of_mem hx
  rw [List.pairwise_append, List.pairwise_cons] at hsorted
  obtain ⟨-, ⟨hback, -⟩, hfront⟩ := hsorted
  have hirrefl : above x x = false := by
    cases hself : above x x with
    | false => rfl
    | true => rw [← hself, hasymm x x hself]
  have hbefore : front.countP (above · x) = 0 := by
    rw [List.countP_eq_zero]
    intro y hy
    rw [hasymm x y (hfront y hy x (List.mem_cons_self ..))]
    exact Bool.false_ne_true
  have hbehind : back.countP (above · x) = back.length := by
    rw [List.countP_eq_length]
    exact hback
  have hcount : (front ++ x :: back).countP (above · x) = back.length := by
    simp [List.countP_append, hbefore, hbehind, hirrefl]
  have hfirst : x ∉ front := by
    intro hmem
    have hself := hfront x hmem x (List.mem_cons_self ..)
    rw [hirrefl] at hself
    cases hself
  rw [mem_take_iff_length_lt hfirst, hcount]
  simp only [List.length_append, List.length_cons] at hk ⊢
  omega

/-! ### Sorting by weight -/

theorem placed_zipIdx (violations : List Violation) :
    violations.zipIdx.Pairwise fun a b => a.2 < b.2 := by
  rw [List.pairwise_iff_getElem]
  intro i j hi hj hij
  simpa using hij

theorem byWeight_perm (violations : List Violation) :
    (byWeight violations).Perm violations.zipIdx :=
  List.mergeSort_perm ..

theorem length_byWeight (violations : List Violation) :
    (byWeight violations).length = violations.length := by
  rw [(byWeight_perm violations).length_eq, List.length_zipIdx]

theorem byWeight_ascending (violations : List Violation) :
    (byWeight violations).Pairwise fun a b => lighter a.1.magnitude b.1.magnitude = true := by
  refine List.pairwise_mergeSort ?_ ?_ _
  · intro a b c hab hbc
    exact lighter_trans hab hbc
  · intro a b
    rw [Bool.or_eq_true]
    exact lighter_total a.1.magnitude b.1.magnitude

/-- Sorting leaves the entries that are as heavy as a given one in order. -/
theorem byWeight_filter_tied (violations : List Violation) (x : Placed) :
    (byWeight violations).filter (tied x) = violations.zipIdx.filter (tied x) := by
  have hordered : (violations.zipIdx.filter (tied x)).Pairwise
      fun a b => lighter a.1.magnitude b.1.magnitude = true := by
    rw [List.pairwise_iff_forall_sublist]
    intro a b hab
    have hax := (List.mem_filter.mp (hab.subset (by simp : a ∈ [a, b]))).2
    have hbx := (List.mem_filter.mp (hab.subset (by simp : b ∈ [a, b]))).2
    rw [tied, Bool.and_eq_true] at hax hbx
    exact lighter_trans hax.2 hbx.1
  have hstable : (violations.zipIdx.filter (tied x)).Sublist (byWeight violations) := by
    refine List.sublist_mergeSort ?_ ?_ hordered List.filter_sublist
    · intro a b c hab hbc
      exact lighter_trans hab hbc
    · intro a b
      rw [Bool.or_eq_true]
      exact lighter_total a.1.magnitude b.1.magnitude
  have hsublist := hstable.filter (tied x)
  rw [List.filter_filter] at hsublist
  simp only [Bool.and_self] at hsublist
  exact (hsublist.eq_of_length ((byWeight_perm violations).filter _).length_eq.symm).symm

/-- Sorting by weight is sorting by rank. -/
theorem byWeight_sorted (violations : List Violation) :
    (byWeight violations).Pairwise fun a b => outranks b a = true := by
  rw [List.pairwise_iff_forall_sublist]
  intro a b hab
  have hlighter : lighter a.1.magnitude b.1.magnitude = true :=
    List.pairwise_iff_forall_sublist.mp (byWeight_ascending violations) hab
  cases hheavier : lighter b.1.magnitude a.1.magnitude with
  | false => simp [outranks, hheavier]
  | true =>
    have htied : [a, b].filter (tied a) = [a, b] := by
      have hself : lighter a.1.magnitude a.1.magnitude = true := lighter_trans hlighter hheavier
      simp [tied, hlighter, hheavier, hself]
    have hsublist := hab.filter (tied a)
    rw [htied, byWeight_filter_tied] at hsublist
    have hplace : a.2 < b.2 := List.pairwise_iff_forall_sublist.mp (placed_zipIdx violations)
      (hsublist.trans List.filter_sublist)
    simp [outranks, tied, hlighter, hheavier, hplace]

/-! ### The cap -/

/-- A cap keeps an entry of a list that fewer than `limit` entries outrank. -/
def keeps (cap : Option Int) (entries : List Placed) (v : Placed) : Bool :=
  match cap with
  | none => true
  | some limit => limit ≤ 0 || ((entries.countP (outranks · v) : Nat) : Int) < limit

theorem eq_of_place {violations : List Violation} {a b : Placed} (ha : a ∈ violations.zipIdx)
    (hb : b ∈ violations.zipIdx) (hplace : a.2 = b.2) : a = b := by
  rw [List.mem_zipIdx_iff_getElem?] at ha hb
  rw [hplace, hb, Option.some.injEq] at ha
  exact Prod.ext ha.symm hplace

/-- Every entry is outranked by other ones only. -/
theorem countP_outranks_lt {violations : List Violation} {v : Placed}
    (hv : v ∈ violations.zipIdx) :
    violations.zipIdx.countP (outranks · v) < violations.length := by
  have hself : outranks v v = false := by
    cases h : outranks v v with
    | false => rfl
    | true => rw [← h, outranks_asymm h]
  have hle : violations.zipIdx.countP (outranks · v) ≤ violations.zipIdx.length :=
    List.countP_le_length
  rw [List.length_zipIdx] at hle
  refine Nat.lt_of_le_of_ne hle ?_
  intro hall
  rw [← List.length_zipIdx (l := violations) (i := 0), List.countP_eq_length] at hall
  rw [hall v hv] at hself
  cases hself

/-- The positions of the lightest entries are those of no other. -/
theorem mem_lightest_iff {violations : List Violation} {v : Placed} (hv : v ∈ violations.zipIdx)
    (count : Nat) : v.2 ∈ ((byWeight violations).take count).map Prod.snd ↔
      v ∈ (byWeight violations).take count := by
  rw [List.mem_map]
  constructor
  · rintro ⟨w, hw, hplace⟩
    have hlisted := (byWeight_perm violations).mem_iff.mp (List.mem_of_mem_take hw)
    rwa [eq_of_place hv hlisted hplace.symm]
  · intro htake
    exact ⟨v, htake, rfl⟩

theorem mem_dropped_iff {violations : List Violation} {v : Placed}
    (hv : v ∈ violations.zipIdx) {limit : Nat} (hlimit : limit ≤ violations.length) :
    v.2 ∈ ((byWeight violations).take (violations.length - limit)).map Prod.snd ↔
      limit ≤ violations.zipIdx.countP (outranks · v) := by
  have hmem : v ∈ byWeight violations := (byWeight_perm violations).mem_iff.mpr hv
  have hcut := mem_take_iff_countP (byWeight_sorted violations) (fun _ _ => outranks_asymm)
    (k := violations.length - limit) (by rw [length_byWeight]; omega) hmem
  rw [length_byWeight, Nat.sub_sub_self hlimit, (byWeight_perm violations).countP_eq] at hcut
  rw [mem_lightest_iff hv, hcut]

theorem capped_zipIdx (cap : Option Int) (violations : List Violation) :
    (capped cap violations).1 =
      (violations.zipIdx.filter (keeps cap violations.zipIdx)).map Prod.fst := by
  have hall : violations = (violations.zipIdx.filter fun _ => true).map Prod.fst := by
    rw [List.filter_eq_self.mpr fun _ _ => rfl, List.zipIdx_map_fst]
  cases cap with
  | none => exact hall
  | some limit =>
    by_cases hoff : limit ≤ 0
    · have hkeeps : keeps (some limit) violations.zipIdx = fun _ => true := by
        funext v
        simp [keeps, hoff]
      rw [hkeeps, ← hall]
      simp [capped, hoff]
    · by_cases hfits : (violations.length : Int) ≤ limit
      · have hkeeps : ∀ v ∈ violations.zipIdx, keeps (some limit) violations.zipIdx v = true := by
          intro v hv
          have hcount := countP_outranks_lt hv
          simp only [keeps, Bool.or_eq_true, decide_eq_true_eq]
          omega
        rw [List.filter_eq_self.mpr hkeeps, List.zipIdx_map_fst]
        simp [capped, hfits]
      · have hcapped : (capped (some limit) violations).1 = dropPositions
            (((byWeight violations).take (violations.length - limit.toNat)).map Prod.snd)
            violations := by
          simp [capped, hoff, hfits]
        have hlimit : limit.toNat ≤ violations.length := by omega
        rw [hcapped, dropPositions]
        congr 1
        apply List.filter_congr
        intro v hv
        have hdropped := mem_dropped_iff hv hlimit
        rw [Bool.eq_iff_iff, Bool.not_eq_true', List.contains_eq_mem, decide_eq_false_iff_not,
          hdropped]
        simp only [keeps, Bool.or_eq_true, decide_eq_true_eq]
        omega

/-! ### Other positions -/

/-- Two entries stand in the list as their positions say. -/
theorem place_lt_iff {entries : List Placed} (hplaced : entries.Pairwise fun a b => a.2 < b.2)
    {a b : Placed × Nat} (ha : a ∈ entries.zipIdx) (hb : b ∈ entries.zipIdx) :
    a.2 < b.2 ↔ a.1.2 < b.1.2 := by
  have hmono {c d : Placed × Nat} (hc : c ∈ entries.zipIdx) (hd : d ∈ entries.zipIdx)
      (hcd : c.2 < d.2) : c.1.2 < d.1.2 := by
    rw [List.mem_zipIdx_iff_getElem?, List.getElem?_eq_some_iff] at hc hd
    obtain ⟨hcl, hc⟩ := hc
    obtain ⟨hdl, hd⟩ := hd
    rw [← hc, ← hd]
    exact List.pairwise_iff_getElem.mp hplaced c.2 d.2 hcl hdl hcd
  constructor
  · exact hmono ha hb
  · intro hlt
    rcases Nat.lt_trichotomy a.2 b.2 with h | h | h
    · exact h
    · rw [List.mem_zipIdx_iff_getElem?] at ha hb
      rw [h, hb, Option.some.injEq] at ha
      rw [ha] at hlt
      exact absurd hlt (Nat.lt_irrefl _)
    · exact absurd (hmono hb ha h) (Nat.lt_asymm hlt)

/-- What a cap keeps depends on the ranks only. -/
theorem keeps_map_congr {α : Type} {items : List α} {f g : α → Placed}
    (hsame : ∀ a ∈ items, ∀ b ∈ items, outranks (f a) (f b) = outranks (g a) (g b))
    (cap : Option Int) {a : α} (ha : a ∈ items) :
    keeps cap (items.map f) (f a) = keeps cap (items.map g) (g a) := by
  have hcount : (items.map f).countP (outranks · (f a)) =
      (items.map g).countP (outranks · (g a)) := by
    rw [List.countP_map, List.countP_map]
    apply List.countP_congr
    intro b hb
    rw [Function.comp_apply, Function.comp_apply, hsame b hb a ha]
  simp only [keeps, hcount]

/-- **The cap by rank.**  Of entries at increasing positions, a cap leaves those that fewer
    than `limit` of them outrank, whatever the entries are written as. -/
theorem capped_map {entries : List Placed} (hplaced : entries.Pairwise fun a b => a.2 < b.2)
    {f : Placed → Violation} (hf : ∀ v, (f v).magnitude = v.1.magnitude) (cap : Option Int) :
    (capped cap (entries.map f)).1 = (entries.filter (keeps cap entries)).map f := by
  let renumbered : Placed × Nat → Placed := fun e => (f e.1, e.2)
  have hrenumbered : (entries.map f).zipIdx = entries.zipIdx.map renumbered := by
    rw [List.zipIdx_map]
    rfl
  have hsame : ∀ a ∈ entries.zipIdx, ∀ b ∈ entries.zipIdx,
      outranks (renumbered a) (renumbered b) = outranks a.1 b.1 := by
    intro a ha b hb
    simp only [outranks, tied, renumbered, hf, place_lt_iff hplaced hb ha]
  have hold : (entries.filter (keeps cap entries)).map f =
      (entries.zipIdx.filter fun e => keeps cap entries e.1).map fun e => f e.1 := by
    have hfilter := List.filter_map (f := Prod.fst) (p := keeps cap entries) (l := entries.zipIdx)
    rw [List.zipIdx_map_fst] at hfilter
    rw [hfilter, List.map_map]
    rfl
  rw [capped_zipIdx, hold, hrenumbered, List.filter_map, List.map_map]
  congr 1
  apply List.filter_congr
  intro e he
  have hkeeps := keeps_map_congr hsame cap he
  rwa [List.zipIdx_map_fst] at hkeeps

end SourceAudit.Violation
