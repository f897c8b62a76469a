/-
  SourceAudit/Toml/Reader.lean
  ============================
  **From TOML text to a document value.**

  A document is a sequence of lines: blank ones, headers and assignments.  The
  headers cut it into sections, from which the tables are built.  `read?` gives the
  root table or nothing when the text is no TOML document.
-/
import SourceAudit.Toml.Value

namespace SourceAudit.Toml

inductive Line where
  | assignment (a : Assignment)
  | header (isArrayItem : Bool) (path : List String) (key : String)
deriving Repr

def assignment? (s : List Char) : Option (Line × List Char) := do
  let (path, key, rest) ← key? s
  match rest with
  | '=' :: rest =>
    let (value, rest) ← value? s.length 0 (skipSpaces rest)
    return (.assignment ⟨path, key, value⟩, ← restOfLine? rest)
  | _ => none

/-- Reads a line that does not start with a blank, a line end or a comment. -/
def statement? (s : List Char) : Option (Line × List Char) :=
  match s with
  | '[' :: '[' :: rest => do
    let (path, key, rest) ← key? rest
    let rest ← Text.afterStart? [']', ']'] rest
    return (.header true path key, ← restOfLine? rest)
  | '[' :: rest => do
    let (path, key, rest) ← key? rest
    let rest ← Text.afterStart? [']'] rest
    return (.header false path key, ← restOfLine? rest)
  | _ => assignment? s

/-- The lines with content.  Every step passes a line, so as many steps as there are
    characters suffice. -/
def lines? : (steps : Nat) → List Char → Option (List Line)
  | steps, s =>
    match skipSpaces s, steps with
    | [], _ => some []
    | _ :: _, 0 => none
    | c :: rest, steps + 1 =>
      if c = '#' || c = '\n' || c = '\r' then do lines? steps (← restOfLine? (c :: rest))
      else do
        let (line, rest) ← statement? (c :: rest)
        return line :: (← lines? steps rest)

/-- Cuts lines into the assignments before the first header and the sections. -/
def sections : List Line → List Assignment × List Section
  | [] => ([], [])
  | .assignment a :: rest => (a :: (sections rest).1, (sections rest).2)
  | .header isArrayItem path key :: rest =>
    ([], ⟨isArrayItem, path, key, (sections rest).1⟩ :: (sections rest).2)

def withoutMark (s : List Char) : List Char :=
  match s with
  | c :: rest => if c.toNat = 0xFEFF then rest else s
  | [] => []

def read? (s : String) : Option Datum := do
  let text := withoutMark s.toList
  let parts := sections (← lines? text.length text)
  document? parts.1 parts.2

end SourceAudit.Toml
