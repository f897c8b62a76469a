/-
  SourceAudit/Datum.lean
  ======================
  **The values of a document.**

  Configuration documents, rule options and serialized reports are trees of one
  kind: scalars, lists and tables.  A table keeps its entries in document order
  and, as read, may hold one key twice; `canonical` is the form in which option
  values are kept, with sorted keys, the last entry of a key, and `null` in place
  of the numbers a JSON document cannot hold.
-/
import SourceAudit.Binary64.Decimal
import SourceAudit.Entries

namespace SourceAudit

/-- A number of a document: whole as written, or binary64. -/
inductive Number where
  | integer (value : Int)
  | real (value : Binary64)
deriving DecidableEq, Repr

def Number.toBinary64 : Number → Binary64
  | .integer i => Binary64.ofInt i
  | .real x => x

inductive Datum where
  | null
  | bool (value : Bool)
  | number (value : Number)
  | text (value : String)
  | list (items : List Datum)
  | table (entries : List (String × Datum))
deriving Repr, Inhabited

namespace Datum

mutual

/-- Sorted keys, one entry for a key, and finite numbers only. -/
def canonical : Datum → Datum
  | .null => .null
  | .bool b => .bool b
  | .number (.integer i) => .number (.integer i)
  | .number (.real x) => if x.isFinite then .number (.real x) else .null
  | .text s => .text s
  | .list items => .list (canonicalItems items)
  | .table entries => .table (canonicalEntries entries [])

def canonicalItems : List Datum → List Datum
  | [] => []
  | d :: rest => canonical d :: canonicalItems rest

/-- Adds the canonical entries to sorted ones, later entries over earlier ones. -/
def canonicalEntries : List (String × Datum) → List (String × Datum) → List (String × Datum)
  | [], sorted => sorted
  | (key, d) :: rest, sorted => canonicalEntries rest (Entries.putSorted key (canonical d) sorted)

end

end Datum

end SourceAudit
