/-
  SourceAudit/Violation.lean
  ==========================
  **Violations, the severity filter and the cap.**

  A run first keeps the violations at or above a minimum severity and then, when
  there are more than the cap allows, drops the lightest: those without a
  magnitude before those with one, then by magnitude in the total order of
  numbers, and among equals the earlier first.  What stays keeps its order.
-/
import SourceAudit.Severity
import SourceAudit.Binary64

namespace SourceAudit

structure Violation where
  /-- Path for display, relative to the analysed directory. -/
  file : String
  rule : String
  severity : Severity
  message : String
  /-- Weight for the cap. -/
  magnitude : Option Binary64
deriving DecidableEq, Repr

namespace Violation

def line (v : Violation) : String :=
  s!"{v.file}: {v.severity.name} [{v.rule}] {v.message}"

def atLeast (minimum : Severity) (violations : List Violation) : List Violation :=
  violations.filter fun v => minimum.rank ≤ v.severity.rank

/-! ### The cap -/

/-- `a` may be dropped before `b`, as far as their magnitudes go. -/
def lighter (a b : Option Binary64) : Bool :=
  match a, b with
  | none, _ => true
  | some _, none => false
  | some x, some y => x.totalRank ≤ y.totalRank

/-- The positions of a list, lightest violation first and equals in order. -/
def byWeight (violations : List Violation) : List (Violation × Nat) :=
  violations.zipIdx.mergeSort fun a b => lighter a.1.magnitude b.1.magnitude

def dropPositions (positions : List Nat) (violations : List Violation) : List Violation :=
  (violations.zipIdx.filter fun v => !positions.contains v.2).map Prod.fst

/-- The violations a cap leaves and how many it dropped.  Without a cap, and with
    one that is not positive, all stay. -/
def capped (cap : Option Int) (violations : List Violation) : List Violation × Nat :=
  match cap with
  | none => (violations, 0)
  | some limit =>
    if limit ≤ 0 || (violations.length : Int) ≤ limit then (violations, 0)
    else
      let excess := violations.length - limit.toNat
      let dropped := ((byWeight violations).take excess).map Prod.snd
      (dropPositions dropped violations, excess)

end Violation

end SourceAudit
