/-
  SourceAudit/Threshold.lean
  ==========================
  **Warning and error thresholds.**

  A pair of thresholds classifies a value.  Which side of a threshold is bad
  depends on the metric; on it or beyond it counts as crossed.  The error threshold
  is asked first, and an absent threshold is never crossed.
-/
import SourceAudit.Severity
import SourceAudit.Binary64

namespace SourceAudit

/-- A warning and an error threshold; an absent one is off. -/
structure Thresholds where
  warning : Option Binary64
  error : Option Binary64
deriving DecidableEq, Repr

/-- Which values of a metric are bad. -/
inductive Direction where
  | higherIsWorse
  | lowerIsWorse
deriving DecidableEq, Repr

namespace Direction

/-- `value` is on the threshold or beyond it. -/
def crosses (direction : Direction) (value threshold : Binary64) : Bool :=
  match direction with
  | .higherIsWorse => value.atLeast threshold
  | .lowerIsWorse => threshold.atLeast value

def sign : Direction → String
  | .higherIsWorse => ">="
  | .lowerIsWorse => "<="

end Direction

namespace Thresholds

def off : Thresholds := ⟨none, none⟩

def isOff (t : Thresholds) : Bool := t.warning.isNone && t.error.isNone

def classify (t : Thresholds) (direction : Direction) (value : Binary64) :
    Option (Severity × Binary64) :=
  match t.error.filter (direction.crosses value) with
  | some limit => some (.error, limit)
  | none => (t.warning.filter (direction.crosses value)).map fun limit => (.warning, limit)

/-- `overrides` on top of `base`, each threshold by itself. -/
def overlay (base overrides : Thresholds) : Thresholds :=
  ⟨overrides.warning.or base.warning, overrides.error.or base.error⟩

end Thresholds

end SourceAudit
