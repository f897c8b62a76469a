/-
  SourceAudit/Proofs/Evictions.lean
  =================================
  **What a cap drops.**

  A cap that is absent, not positive or not exceeded leaves a list as it is.  Any other
  splits the entries in two: as many as it allows stay, in their order, and each that goes
  ranks below each that stays (`RanksBelow`).  An entry without magnitude ranks below those
  with one, numbers rank in the total order of the standard, and of two entries with the same
  magnitude the one further in front ranks below.

  The entries that go are the first of the sorted positions, so the split is the cut of the
  sorted list (`filter_lightest_perm`).

  * `capped_drops_lowest`: the whole statement.
-/
import SourceAudit.Proofs.Ranking
import SourceAudit.Proofs.Binary64.TotalOrder

namespace SourceAudit.Violation

/-! ### Ranks -/

/-- `a` ranks below `b`: by its magnitude, or by its place among entries of one magnitude. -/
inductive RanksBelow (a b : Placed) : Prop
  | absent {y : Binary64} (ha : a.1.magnitude = none) (hb : b.1.magnitude = some y)
  | lower {x y : Binary64} (ha : a.1.magnitude = some x) (hb : b.1.magnitude = some y)
      (hless : x.Precedes y)
  | earlier (hsame : a.1.magnitude = b.1.magnitude) (hplace : a.2 < b.2)

theorem ranksBelow_of_outranks {a b : Placed} (h : outranks b a = true) : RanksBelow a b := by
  rw [outranks, tied, Bool.or_eq_true, Bool.not_eq_true', Bool.and_eq_true, Bool.and_eq_true,
    decide_eq_true_eq] at h
  cases ha : a.1.magnitude with
  | none =>
    cases hb : b.1.magnitude with
    | none =>
      rw [ha, hb] at h
      rcases h with hheavier | ⟨-, hplace⟩
      · cases hheavier
      · exact .earlier (ha.trans hb.symm) hplace
    | some y => exact .absent ha hb
  | some x =>
    cases hb : b.1.magnitude with
    | none =>
      rw [ha, hb] at h
      rcases h with hheavier | ⟨⟨-, hlighter⟩, -⟩
      · cases hheavier
      · cases hlighter
    | some y =>
      rw [ha, hb] at h
      simp only [lighter, decide_eq_false_iff_not, decide_eq_true_eq] at h
      rcases h with hheavier | ⟨⟨hyx, hxy⟩, hplace⟩
      · exact .lower ha hb (Binary64.precedes_iff_totalRank.mpr (Int.not_le.mp hheavier))
      · have hsame : x = y := Binary64.totalRank_inj.mp (Int.le_antisymm hxy hyx)
        exact .earlier (by rw [ha, hb, hsame]) hplace

/-! ### The cut of the sorted list -/

variable {violations : List Violation} {excess : Nat}

theorem zipIdx_nodup (violations : List Violation) : violations.zipIdx.Nodup := by
  refine (placed_zipIdx violations).imp ?_
  rintro a b hlt rfl
  exact Nat.lt_irrefl _ hlt

/-- The place is one of the `excess` lightest entries. -/
def goes (violations : List Violation) (excess : Nat) (v : Placed) : Bool :=
  (((byWeight violations).take excess).map Prod.snd).contains v.2

theorem goes_iff {v : Placed} (hv : v ∈ violations.zipIdx) :
    goes violations excess v = true ↔ v ∈ (byWeight violations).take excess := by
  rw [goes, List.contains_iff_mem, mem_lightest_iff hv]

theorem filter_lightest_perm (violations : List Violation) (excess : Nat) :
    (violations.zipIdx.filter (goes violations excess)).Perm
      ((byWeight violations).take excess) := by
  have hsorted : (byWeight violations).Nodup :=
    (byWeight_perm violations).nodup_iff.mpr (zipIdx_nodup violations)
  rw [List.perm_ext_iff_of_nodup ((zipIdx_nodup violations).filter _)
    (hsorted.sublist (List.take_sublist ..))]
  intro v
  rw [List.mem_filter]
  constructor
  · rintro ⟨hv, hgoes⟩
    exact (goes_iff hv).mp hgoes
  · intro htake
    have hv := (byWeight_perm violations).mem_iff.mp (List.mem_of_mem_take htake)
    exact ⟨hv, (goes_iff hv).mpr htake⟩

/-- What goes ranks below what stays. -/
theorem ranksBelow_of_goes {a b : Placed} (ha : a ∈ violations.zipIdx)
    (hb : b ∈ violations.zipIdx) (hgoes : goes violations excess a = true)
    (hstays : goes violations excess b = false) : RanksBelow a b := by
  have hcut := byWeight_sorted violations
  rw [← List.take_append_drop excess (byWeight violations), List.pairwise_append] at hcut
  obtain ⟨-, -, hacross⟩ := hcut
  have hfront := (goes_iff ha).mp hgoes
  have hback : b ∈ (byWeight violations).drop excess := by
    have hlisted := (byWeight_perm violations).mem_iff.mpr hb
    rw [← List.take_append_drop excess (byWeight violations), List.mem_append] at hlisted
    rcases hlisted with hlight | hheavy
    · rw [(goes_iff hb).mpr hlight] at hstays
      cases hstays
    · exact hheavy
  exact ranksBelow_of_outranks (hacross a hfront b hback)

/-! ### The cap -/

/-- A cap that takes nothing away. -/
theorem capped_of_slack {cap : Option Int}
    (hslack : ∀ limit, cap = some limit → limit ≤ 0 ∨ (violations.length : Int) ≤ limit) :
    capped cap violations = (violations, 0) := by
  cases cap with
  | none => rfl
  | some limit =>
    rw [capped, if_pos]
    rw [Bool.or_eq_true, decide_eq_true_eq, decide_eq_true_eq]
    exact hslack limit rfl

theorem capped_of_excess {limit : Nat} (hpositive : 0 < limit)
    (hexcess : limit < violations.length) :
    capped (some limit) violations =
      ((violations.zipIdx.filter fun v => !goes violations (violations.length - limit) v).map
        Prod.fst, violations.length - limit) := by
  have hnot : ¬ ((limit : Int) ≤ 0 || (violations.length : Int) ≤ limit) = true := by
    rw [Bool.or_eq_true, decide_eq_true_eq, decide_eq_true_eq]
    omega
  rw [capped, if_neg hnot]
  rfl

/-- **The lowest go.**  A cap that is absent, not positive or not exceeded drops nothing.  Any
    other keeps as many entries as it says, in their order, and drops entries that each rank
    below each of those; magnitudes rank from `-NaN` over `-∞`, `-0`, `+0` and `+∞` to `NaN`. -/
theorem capped_drops_lowest (cap : Option Int) (violations : List Violation) :
    ((∀ limit, cap = some limit → limit ≤ 0 ∨ (violations.length : Int) ≤ limit) →
      capped cap violations = (violations, 0)) ∧
    (∀ limit : Nat, cap = some (limit : Int) → 0 < limit → limit < violations.length →
      ∃ kept dropped : List Placed,
        kept.Sublist violations.zipIdx ∧ (kept ++ dropped).Perm violations.zipIdx ∧
          kept.length = limit ∧
          capped cap violations = (kept.map Prod.fst, violations.length - limit) ∧
          ∀ a ∈ dropped, ∀ b ∈ kept, RanksBelow a b) ∧
    ∀ low high : Binary64, low.isNaN = true → low.negative = true → high.isNaN = true →
      high.negative = false →
      [low, .infinity true, .zero true, .zero false, .infinity false, high].IsChain
        Binary64.Precedes := by
  refine ⟨capped_of_slack, ?_, fun low high => Binary64.precedes_marks⟩
  rintro limit rfl hpositive hexcess
  have hall : ((violations.zipIdx.filter fun v => !goes violations (violations.length - limit) v) ++
      violations.zipIdx.filter (goes violations (violations.length - limit))).Perm
        violations.zipIdx :=
    List.perm_append_comm.trans (List.filter_append_perm _ _)
  refine ⟨_, _, List.filter_sublist, hall, ?_, capped_of_excess hpositive hexcess, ?_⟩
  · have hlength := hall.length_eq
    have hdropped := (filter_lightest_perm violations (violations.length - limit)).length_eq
    rw [List.length_take, length_byWeight] at hdropped
    rw [List.length_append, hdropped, List.length_zipIdx] at hlength
    omega
  · intro a ha b hb
    obtain ⟨ha, hgoes⟩ := List.mem_filter.mp ha
    obtain ⟨hb, hstays⟩ := List.mem_filter.mp hb
    exact ranksBelow_of_goes ha hb hgoes (by simpa using hstays)

/-- Entries with every kind of magnitude, some of them twice. -/
def motley : List Violation :=
  [none, some (.nan false), some (.zero false), some (.infinity true), some (.zero true),
    some (.zero false), some (.nan true), none].zipIdx.map fun m =>
      ⟨s!"{m.2}.dart", "size", .warning, "too long", m.1⟩

theorem capped_drops_lowest_motley :
    (capped (some (3 : Nat)) motley).1.map Violation.file = ["1.dart", "2.dart", "5.dart"] ∧
      ∃ kept dropped : List Placed, (kept ++ dropped).Perm motley.zipIdx ∧ kept.length = 3 ∧
        ∀ a ∈ dropped, ∀ b ∈ kept, RanksBelow a b := by
  obtain ⟨-, hcapped, -⟩ := capped_drops_lowest (some (3 : Nat)) motley
  obtain ⟨kept, dropped, -, hall, hlength, -, hbelow⟩ := hcapped 3 rfl (by decide) (by decide)
  refine ⟨?_, kept, dropped, hall, hlength, hbelow⟩
  rw [capped_zipIdx]
  decide +kernel

end SourceAudit.Violation
