/-
  SourceAudit/Proofs/NestedCaps.lean
  ==================================
  **Two caps in a row.**

  Ranking is transitive, so whatever outranks an entry that a cap keeps is kept by it too
  (`keeps_of_outranks`).  An entry that is left therefore has the same entries above it in
  what is left as it had in the whole list, and a second cap judges it as the whole list
  would (`keeps_twice`).

    * `length_capped`: how many entries a positive cap leaves, and how many it drops;
    * `capped_twice`: two caps in a row are the smaller one.
-/
import SourceAudit.Proofs.Evictions

namespace SourceAudit.Violation

/-! ### Ranking is transitive -/

theorem lighter_of_outranks {a b : Placed} (hab : outranks a b = true) :
    lighter b.1.magnitude a.1.magnitude = true := by
  have htotal := lighter_total a.1.magnitude b.1.magnitude
  rw [outranks, tied, Bool.or_eq_true, Bool.not_eq_true', Bool.and_eq_true, Bool.and_eq_true] at hab
  rcases hab with hheavier | ⟨⟨-, hlighter⟩, -⟩
  · rw [hheavier] at htotal
    exact htotal.resolve_left Bool.false_ne_true
  · exact hlighter

/-- Of two equally heavy entries the one further back outranks the other. -/
theorem place_lt_of_outranks {a b : Placed} (hab : outranks a b = true)
    (hlighter : lighter a.1.magnitude b.1.magnitude = true) : b.2 < a.2 := by
  simpa [outranks, tied, hlighter, lighter_of_outranks hab] using hab

theorem outranks_trans {a b c : Placed} (hab : outranks a b = true) (hbc : outranks b c = true) :
    outranks a c = true := by
  have hba := lighter_of_outranks hab
  have hcb := lighter_of_outranks hbc
  have hca := lighter_trans hcb hba
  cases hac : lighter a.1.magnitude c.1.magnitude with
  | false => simp [outranks, hac]
  | true =>
    -- all three are equally heavy, so their places decide
    have hfirst := place_lt_of_outranks hab (lighter_trans hac hcb)
    have hsecond := place_lt_of_outranks hbc (lighter_trans hba hac)
    simp [outranks, tied, hac, hca, Nat.lt_trans hsecond hfirst]

/-! ### What is left is ranked as before -/

/-- What outranks an entry that stays, stays. -/
theorem keeps_of_outranks {cap : Option Int} {entries : List Placed} {v w : Placed}
    (hv : keeps cap entries v = true) (hwv : outranks w v = true) :
    keeps cap entries w = true := by
  have hfewer : entries.countP (outranks · w) ≤ entries.countP (outranks · v) := by
    apply List.countP_mono_left
    intro u _ huw
    exact outranks_trans huw hwv
  cases cap with
  | none => rfl
  | some limit =>
    simp only [keeps, Bool.or_eq_true, decide_eq_true_eq] at hv ⊢
    omega

theorem countP_outranks_left {cap : Option Int} {entries : List Placed} {v : Placed}
    (hv : keeps cap entries v = true) :
    (entries.filter (keeps cap entries)).countP (outranks · v) =
      entries.countP (outranks · v) := by
  rw [List.countP_filter]
  apply List.countP_congr
  intro w _
  rw [Bool.and_eq_true]
  exact ⟨And.left, fun hwv => ⟨hwv, keeps_of_outranks hv hwv⟩⟩

/-- An entry that two caps leave is one that the smaller of them leaves. -/
theorem keeps_twice {first second : Int} (hfirst : 0 < first) (hsecond : 0 < second)
    (entries : List Placed) (v : Placed) :
    (keeps (some first) entries v &&
        keeps (some second) (entries.filter (keeps (some first) entries)) v) =
      keeps (some (min first second)) entries v := by
  cases hv : keeps (some first) entries v with
  | true =>
    simp only [keeps, countP_outranks_left hv, Bool.true_and] at hv ⊢
    simp only [Bool.or_eq_true, decide_eq_true_eq] at hv
    rw [Bool.eq_iff_iff]
    simp only [Bool.or_eq_true, decide_eq_true_eq]
    omega
  | false =>
    rw [Bool.false_and, eq_comm]
    simp only [keeps, Bool.or_eq_false_iff, decide_eq_false_iff_not] at hv ⊢
    omega

/-! ### How many are left -/

theorem length_capped {limit : Int} (hpositive : 0 < limit) (violations : List Violation) :
    (capped (some limit) violations).1.length = min violations.length limit.toNat ∧
      (capped (some limit) violations).2 = violations.length - limit.toNat := by
  obtain ⟨limit, rfl⟩ := Int.eq_ofNat_of_zero_le (Int.le_of_lt hpositive)
  rw [Int.toNat_natCast]
  rcases Nat.lt_or_ge limit violations.length with hexcess | hslack
  · rw [capped_of_excess (by omega) hexcess, List.length_map]
    have hsplit := List.length_eq_length_filter_add (α := Placed) (l := violations.zipIdx)
      (goes violations (violations.length - limit))
    have hgone := (filter_lightest_perm violations (violations.length - limit)).length_eq
    rw [List.length_take, length_byWeight] at hgone
    rw [List.length_zipIdx] at hsplit
    constructor
    · omega
    · rfl
  · have hall : capped (some (limit : Int)) violations = (violations, 0) := by
      refine capped_of_slack fun most hmost => .inr ?_
      rw [← Option.some.inj hmost]
      exact Int.ofNat_le.mpr hslack
    rw [hall]
    exact ⟨(Nat.min_eq_left hslack).symm, (Nat.sub_eq_zero_of_le hslack).symm⟩

/-! ### Two caps -/

/-- What two caps leave is what the smaller one leaves. -/
theorem left_twice {first second : Int} (hfirst : 0 < first) (hsecond : 0 < second)
    (violations : List Violation) :
    (capped (some second) (capped (some first) violations).1).1 =
      (capped (some (min first second)) violations).1 := by
  have hplaced := (placed_zipIdx violations).filter (keeps (some first) violations.zipIdx)
  rw [capped_zipIdx (some first), capped_map hplaced (fun _ => rfl), List.filter_filter,
    capped_zipIdx]
  congr 2
  funext v
  rw [Bool.and_comm]
  exact keeps_twice hfirst hsecond violations.zipIdx v

/-- **Two caps in a row.**  The second cap leaves what the smaller of both leaves of the whole
    list, and together they drop as many.  So a smaller cap leaves some of what a larger one
    leaves, in the same order.  Equally heavy entries may differ in their texts, so this also
    says which of them are left. -/
theorem capped_twice {first second : Int} (hfirst : 0 < first) (hsecond : 0 < second)
    (violations : List Violation) :
    (capped (some second) (capped (some first) violations).1).1 =
        (capped (some (min first second)) violations).1 ∧
      (capped (some first) violations).2 +
          (capped (some second) (capped (some first) violations).1).2 =
        (capped (some (min first second)) violations).2 ∧
      (first ≤ second →
        (capped (some first) violations).1.Sublist (capped (some second) violations).1) := by
  have hmin : 0 < min first second := by omega
  refine ⟨left_twice hfirst hsecond violations, ?_, fun hle => ?_⟩
  · rw [(length_capped hfirst violations).2, (length_capped hsecond _).2,
      (length_capped hfirst violations).1, (length_capped hmin violations).2]
    omega
  · have hsmaller := left_twice hsecond hfirst violations
    rw [Int.min_eq_right hle] at hsmaller
    rw [← hsmaller, capped_zipIdx (some first)]
    have hsublist := (List.filter_sublist (l := (capped (some second) violations).1.zipIdx)
      (p := keeps (some first) (capped (some second) violations).1.zipIdx)).map Prod.fst
    rwa [List.zipIdx_map_fst] at hsublist

/-- Of the list with every kind of magnitude, five and then three stay. -/
theorem capped_twice_motley :
    (capped (some 3) (capped (some 5) motley).1).1.map Violation.file =
        ["1.dart", "2.dart", "5.dart"] ∧
      (capped (some 5) motley).2 + (capped (some 3) (capped (some 5) motley).1).2 = 5 ∧
      (capped (some 3) motley).1.Sublist (capped (some 5) motley).1 := by
  have hthree : (0 : Int) < 3 := by decide
  have hfive : (0 : Int) < 5 := by decide
  obtain ⟨hleft, hdropped, -⟩ := capped_twice hfive hthree motley
  obtain ⟨-, -, hsublist⟩ := capped_twice hthree hfive motley
  refine ⟨?_, hdropped.trans (length_capped (by decide) motley).2, hsublist (by decide)⟩
  rw [hleft, capped_zipIdx]
  decide +kernel

end SourceAudit.Violation
