/-
  SourceAudit/Config/Draft.lean
  =============================
  **Configurations as they stand in a document.**

  A draft has the shape of a configuration, but its levels and patterns are still
  texts.  Blocks stand under `rules`, or at the top level beside the settings.  Those
  at the top level are kept as plain values at first: their shape is only looked at
  when their turn comes.
-/
import SourceAudit.Threshold
import SourceAudit.Shape

namespace SourceAudit

/-! ### Thresholds -/

def Thresholds.field (t : Thresholds) : String × Datum → Except ShapeError Thresholds
  | ("warning", d) => return { t with warning := ← Shape.optional Shape.real d }
  | ("error", d) => return { t with error := ← Shape.optional Shape.real d }
  | _ => return t

def Thresholds.ofDatum (excess : Shape.Excess) : Datum → Except ShapeError Thresholds :=
  Shape.record "struct MetricThresholds" excess ["warning", "error"] Thresholds.field .off

/-! ### Exceptions -/

structure ExceptionDraft where
  file : Option String
  thresholds : Thresholds
  metrics : List (String × Thresholds)
  reason : Option String
deriving DecidableEq, Repr

namespace ExceptionDraft

def field (excess : Shape.Excess) (e : ExceptionDraft) :
    String × Datum → Except ShapeError ExceptionDraft
  | ("file", d) => return { e with file := ← Shape.optional Shape.text d }
  | ("metrics", d) => return { e with metrics := ← Shape.table (Thresholds.ofDatum excess) d }
  | ("reason", d) => return { e with reason := ← Shape.optional Shape.text d }
  | entry => return { e with thresholds := ← e.thresholds.field entry }

def ofDatum (excess : Shape.Excess) : Datum → Except ShapeError ExceptionDraft :=
  Shape.record "struct ExceptionDto" excess ["file", "warning", "error", "metrics", "reason"]
    (field excess) ⟨none, .off, [], none⟩

end ExceptionDraft

/-! ### Rules -/

structure RuleDraft where
  enabled : Option Bool
  thresholds : Thresholds
  level : Option String
  exceptions : List ExceptionDraft
  metrics : List (String × Thresholds)
  options : List (String × Datum)
deriving Repr

namespace RuleDraft

/-- The fields every rule has; all others are options. -/
def fields : List String := ["enabled", "warning", "error", "log_level", "exceptions", "metrics"]

def field (excess : Shape.Excess) (r : RuleDraft) : String × Datum → Except ShapeError RuleDraft
  | ("enabled", d) => return { r with enabled := ← Shape.optional Shape.bool d }
  | ("warning", d) =>
    return { r with thresholds := { r.thresholds with warning := ← Shape.optional Shape.real d } }
  | ("error", d) =>
    return { r with thresholds := { r.thresholds with error := ← Shape.optional Shape.real d } }
  | ("log_level", d) => return { r with level := ← Shape.optional Shape.text d }
  | ("exceptions", d) =>
    return { r with exceptions := ← Shape.list (ExceptionDraft.ofDatum excess) d }
  | ("metrics", d) => return { r with metrics := ← Shape.table (Thresholds.ofDatum excess) d }
  | (key, d) => return { r with options := Entries.put key d.canonical r.options }

def ofDatum (excess : Shape.Excess) : Datum → Except ShapeError RuleDraft
  | .table entries =>
    Shape.record "struct RuleConfigDto" excess fields (field excess)
      ⟨none, .off, none, [], [], []⟩ (.table entries)
  | d => .error (.unexpected d "struct RuleConfigDto")

end RuleDraft

/-! ### Whole documents -/

structure ConfigDraft where
  level : Option String
  maxErrors : Option Int
  exclude : List String
  respectGitignore : Option Bool
  rules : List (String × RuleDraft)
  /-- The other keys of the top level, with their values in canonical form. -/
  topLevel : List (String × Datum)
deriving Repr

namespace ConfigDraft

def analyzerField (s : List String × Option Bool) :
    String × Datum → Except ShapeError (List String × Option Bool)
  | ("exclude", d) => return (← Shape.texts d, s.2)
  | ("respect_gitignore", d) => return (s.1, ← Shape.optional Shape.bool d)
  | _ => return s

def analyzerOfDatum (excess : Shape.Excess) :
    Datum → Except ShapeError (List String × Option Bool) :=
  Shape.record "struct AnalyzerDto" excess ["exclude", "respect_gitignore"] analyzerField ([], none)

/-- The keys of settings.  The cap goes by two names. -/
def settings : List String :=
  ["log_level", "max_errors", "max_amount_of_errors", "analyzer", "rules"]

def field (excess : Shape.Excess) (c : ConfigDraft) :
    String × Datum → Except ShapeError ConfigDraft
  | ("log_level", d) => return { c with level := ← Shape.optional Shape.text d }
  | ("max_errors", d) => return { c with maxErrors := ← Shape.optional Shape.integer d }
  | ("max_amount_of_errors", d) =>
    return { c with maxErrors := ← Shape.optional Shape.integer d }
  | ("analyzer", d) => do
    let (exclude, respect) ← analyzerOfDatum excess d
    return { c with exclude := exclude, respectGitignore := respect }
  | ("rules", d) => return { c with rules := ← Shape.table (RuleDraft.ofDatum excess) d }
  | (key, d) => return { c with topLevel := Entries.put key d.canonical c.topLevel }

/-- A document is a table in which each setting stands at most once. -/
def ofDatum (excess : Shape.Excess) : Datum → Except ShapeError ConfigDraft
  | .table entries =>
    if (entries.lookup "max_errors").isSome && (entries.lookup "max_amount_of_errors").isSome then
      .error (.repeated "max_errors")
    else
      Shape.record "struct ConfigDto" excess settings (field excess)
        ⟨none, none, [], none, [], []⟩ (.table entries)
  | d => .error (.unexpected d "struct ConfigDto")

end ConfigDraft

end SourceAudit
