/-
  SourceAudit/Shape.lean
  ======================
  **Reading typed values out of a document.**

  A setting expects a value of some shape: a number, a text, a list of such, or a
  record with named fields.  A record is written as a table, or as a list of its
  fields in their order.  `null` stands for an absent optional value and is an error
  everywhere else; an integer may stand for a real number, never the reverse.  The
  first value in document order that does not fit is reported.
-/
import SourceAudit.Datum
import SourceAudit.Text.Quoted

namespace SourceAudit

inductive ShapeError where
  | unexpected (found : Datum) (expected : String)
  | missing (field : String)
  | repeated (field : String)
  | tooShort (length : Nat) (expected : String)
  | tooLong (length : Nat)
deriving Repr

namespace ShapeError

/-- What a message calls a value. -/
def describe : Datum → String
  | .null => "null"
  | .bool b => s!"boolean `{b}`"
  | .number (.integer i) => s!"integer `{i}`"
  | .number (.real x) => s!"floating point `{x.jsonText}`"
  | .text s => s!"string {Text.quoted s}"
  | .list _ => "sequence"
  | .table _ => "map"

def message : ShapeError → String
  | .unexpected found expected => s!"invalid type: {describe found}, expected {expected}"
  | .missing field => s!"missing field `{field}`"
  | .repeated field => s!"duplicate field `{field}`"
  | .tooShort length expected => s!"invalid length {length}, expected {expected}"
  | .tooLong length => s!"invalid length {length}, expected fewer elements in array"

end ShapeError

namespace Shape

/-! ### Single values -/

def bool : Datum → Except ShapeError Bool
  | .bool b => .ok b
  | d => .error (.unexpected d "a boolean")

def real : Datum → Except ShapeError Binary64
  | .number n => .ok n.toBinary64
  | d => .error (.unexpected d "f64")

def text : Datum → Except ShapeError String
  | .text s => .ok s
  | d => .error (.unexpected d "a string")

def integer : Datum → Except ShapeError Int
  | .number (.integer i) =>
    if -0x8000000000000000 ≤ i && i < 0x8000000000000000 then .ok i
    else .error (.unexpected (.number (.integer i)) "i64")
  | d => .error (.unexpected d "i64")

def natural : Datum → Except ShapeError Nat
  | .number (.integer i) =>
    if 0 ≤ i then .ok i.toNat else .error (.unexpected (.number (.integer i)) "usize")
  | d => .error (.unexpected d "usize")

/-- A value that may be `null`. -/
def optional {α : Type} (decode : Datum → Except ShapeError α) :
    Datum → Except ShapeError (Option α)
  | .null => .ok none
  | d => (decode d).map some

/-! ### Lists, tables and records -/

def list {α : Type} (decode : Datum → Except ShapeError α) : Datum → Except ShapeError (List α)
  | .list items => items.mapM decode
  | d => .error (.unexpected d "a sequence")

def texts : Datum → Except ShapeError (List String) := list text

def values {α : Type} (decode : Datum → Except ShapeError α) :
    List (String × Datum) → Except ShapeError (List (String × α))
  | [] => .ok []
  | (key, d) :: rest => do
    let value ← decode d
    return (key, value) :: (← values decode rest)

def table {α : Type} (decode : Datum → Except ShapeError α) :
    Datum → Except ShapeError (List (String × α))
  | .table entries => (values decode entries).map Entries.ofList
  | d => .error (.unexpected d "a map")

/-- Whether a list may be longer than the record it stands for. -/
inductive Excess where
  | refused
  | ignored
deriving DecidableEq, Repr

/-- The first of the known fields that stands twice among keys. -/
def repeated? (fields keys : List String) : Option String :=
  fields.find? fun f => 2 ≤ keys.count f

/-- Reads a record: `step` takes one field into the state, in document order, and
    leaves the state as it is at a field it does not know. -/
def record {σ : Type} (name : String) (excess : Excess) (fields : List String)
    (step : σ → String × Datum → Except ShapeError σ) (start : σ) : Datum → Except ShapeError σ
  | .table entries =>
    match repeated? fields (entries.map Prod.fst) with
    | some field => .error (.repeated field)
    | none => entries.foldlM step start
  | .list items => do
    let state ← (fields.zip items).foldlM step start
    if excess = .refused && fields.length < items.length then .error (.tooLong items.length)
    else return state
  | d => .error (.unexpected d name)

end Shape

end SourceAudit
