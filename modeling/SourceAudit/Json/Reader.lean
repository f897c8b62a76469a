/-
  SourceAudit/Json/Reader.lean
  ============================
  **From tokens to a document value.**

  A pushdown automaton: the stack holds the lists and tables still open, and the
  expectation says what may come next.  Every token moves it one step or refuses
  the document, so reading is a fold over the tokens.  More than 127 containers
  open at once are refused.
-/
import SourceAudit.Json.Token

namespace SourceAudit.Json

/-- A container still open: its content so far, last entry first. -/
inductive Open where
  | list (items : List Datum)
  | table (entries : List (String × Datum)) (key : String)
deriving Repr

inductive Expect where
  | value                                        -- a value
  | firstItem                                    -- a value or the end of an empty list
  | firstKey (entries : List (String × Datum))   -- a key or the end of an empty table
  | key (entries : List (String × Datum))        -- a key
  | colon (entries : List (String × Datum)) (key : String)
  | separator (done : Datum)                     -- a comma or the end, after an item
deriving Repr

/-- The containers around the reading position, innermost first, and what may come. -/
structure State where
  stack : List Open
  expect : Expect
deriving Repr

/-- No more containers than this may be open at once. -/
def maxOpen : Nat := 127

def State.hasRoom (stack : List Open) : Bool := stack.length < maxOpen

/-- Opens a list or takes a scalar, where a value may stand. -/
def stepValue? (stack : List Open) : Token → Option State
  | .openList => if State.hasRoom stack then some ⟨.list [] :: stack, .firstItem⟩ else none
  | .openTable => if State.hasRoom stack then some ⟨.table [] "" :: stack, .firstKey []⟩ else none
  | .null => some ⟨stack, .separator .null⟩
  | .bool b => some ⟨stack, .separator (.bool b)⟩
  | .number n => some ⟨stack, .separator (.number n)⟩
  | .text s => some ⟨stack, .separator (.text s)⟩
  | _ => none

def step? (state : State) (token : Token) : Option State :=
  match state.expect, token, state.stack with
  | .value, t, stack => stepValue? stack t
  | .firstItem, .closeList, .list _ :: stack => some ⟨stack, .separator (.list [])⟩
  | .firstItem, t, stack => stepValue? stack t
  | .firstKey _, .closeTable, .table _ _ :: stack => some ⟨stack, .separator (.table [])⟩
  | .firstKey entries, .text key, stack => some ⟨stack, .colon entries key⟩
  | .key entries, .text key, stack => some ⟨stack, .colon entries key⟩
  | .colon entries key, .colon, .table _ _ :: stack => some ⟨.table entries key :: stack, .value⟩
  | .separator d, .comma, .list items :: stack => some ⟨.list (d :: items) :: stack, .value⟩
  | .separator d, .comma, .table entries key :: stack =>
    some ⟨.table entries key :: stack, .key ((key, d) :: entries)⟩
  | .separator d, .closeList, .list items :: stack =>
    some ⟨stack, .separator (.list (d :: items).reverse)⟩
  | .separator d, .closeTable, .table entries key :: stack =>
    some ⟨stack, .separator (.table ((key, d) :: entries).reverse)⟩
  | _, _, _ => none

/-- Reads a document: one value with nothing but blanks around it. -/
def read? (s : String) : Option Datum := do
  let tokens ← tokens? s.toList
  let final ← tokens.foldlM step? ⟨[], .value⟩
  match final with
  | ⟨[], .separator d⟩ => some d
  | _ => none

end SourceAudit.Json
