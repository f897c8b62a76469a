/-
  SourceAudit/Toml/Value.lean
  ===========================
  **Keys, arrays and inline tables of a TOML document.**

  A key is a bare word or a quoted text, or several of these with dots between.  An
  array may spread over lines, with comments, and may end in a comma; an inline
  table stands on one line and does not.  Fewer than eighty arrays and inline tables
  may be nested, and a dotted key has fewer than eighty parts.
-/
import SourceAudit.Toml.Quoted
import SourceAudit.Toml.Scalar
import SourceAudit.Toml.Tree

namespace SourceAudit.Toml

/-- The limit on nesting and on the parts of a key. -/
def depthLimit : Nat := 80

def skipSpaces (s : List Char) : List Char := s.dropWhile isSpace

def lineEnd? : List Char → Option (List Char)
  | [] => some []
  | '\n' :: rest => some rest
  | '\r' :: '\n' :: rest => some rest
  | _ => none

def restOfLine? (s : List Char) : Option (List Char) :=
  match skipSpaces s with
  | '#' :: comment => lineEnd? (comment.dropWhile isInLine)
  | rest => lineEnd? rest

/-- Passes blanks, comments and line ends.  Each of the steps passes at least one
    character. -/
def skipLines? : (steps : Nat) → List Char → Option (List Char)
  | 0, s => some s
  | steps + 1, s =>
    match skipSpaces s with
    | '\n' :: rest => skipLines? steps rest
    | '\r' :: '\n' :: rest => skipLines? steps rest
    | '#' :: comment =>
      match comment.dropWhile isInLine with
      | '\n' :: rest => skipLines? steps rest
      | '\r' :: '\n' :: rest => skipLines? steps rest
      | _ => none
    | rest => some rest

/-! ### Keys -/

def inBareKey (c : Char) : Bool := c.isAlphanum || c = '_' || c = '-'

def keyPart? (s : List Char) : Option (String × List Char) :=
  match s with
  | '"' :: _ => (line? s).map fun cut => (String.ofList cut.1, cut.2)
  | '\'' :: _ => (line? s).map fun cut => (String.ofList cut.1, cut.2)
  | _ =>
    let word := s.takeWhile inBareKey
    if word.isEmpty then none else some (String.ofList word, s.dropWhile inBareKey)

/-- The parts of a key, at most `limit` of them, and what follows behind blanks. -/
def keyParts? : (limit : Nat) → List Char → Option (List String × List Char)
  | 0, _ => none
  | limit + 1, s => do
    let (part, rest) ← keyPart? (skipSpaces s)
    match skipSpaces rest with
    | '.' :: rest =>
      let (parts, rest) ← keyParts? limit rest
      return (part :: parts, rest)
    | rest => return ([part], rest)

/-- A key: the path before its last part, the last part, and what follows. -/
def key? (s : List Char) : Option (List String × String × List Char) := do
  let (parts, rest) ← keyParts? (depthLimit - 1) s
  return (parts.dropLast, ← parts.getLast?, rest)

/-! ### Values -/

mutual

/-- Reads a value inside `depth` containers.  Every step takes a character. -/
def value? : (steps depth : Nat) → List Char → Option (Datum × List Char)
  | 0, _, _ => none
  | steps + 1, depth, s =>
    match s with
    | '[' :: rest => if depth + 1 < depthLimit then items? steps (depth + 1) rest [] else none
    | '\x7b' :: rest =>
      if depth + 1 < depthLimit then
        match skipSpaces rest with
        | '\x7d' :: rest => some (.table [], rest)
        | rest => pairs? steps (depth + 1) rest []
      else none
    | '"' :: _ => (quoted? s).map fun cut => (.text (String.ofList cut.1), cut.2)
    | '\'' :: _ => (quoted? s).map fun cut => (.text (String.ofList cut.1), cut.2)
    | _ => (word? (splitWord s).1).map fun d => (d, (splitWord s).2)

/-- Reads the items of an array up to its end; those read so far come last first. -/
def items? : (steps depth : Nat) → List Char → List Datum → Option (Datum × List Char)
  | 0, _, _, _ => none
  | steps + 1, depth, s, items => do
    match ← skipLines? s.length s with
    | ']' :: rest => some (.list items.reverse, rest)
    | start =>
      let (item, rest) ← value? steps depth start
      match ← skipLines? rest.length rest with
      | ',' :: rest => items? steps depth rest (item :: items)
      | ']' :: rest => some (.list (item :: items).reverse, rest)
      | _ => none

def pairs? : (steps depth : Nat) → List Char → Nodes → Option (Datum × List Char)
  | 0, _, _, _ => none
  | steps + 1, depth, s, nodes => do
    let (path, key, rest) ← key? s
    match rest with
    | '=' :: rest =>
      let (value, rest) ← value? steps depth (skipSpaces rest)
      let nodes ← assign? value key path nodes
      match skipSpaces rest with
      | ',' :: rest => pairs? steps depth rest nodes
      | '\x7d' :: rest => some (.table (entriesToDatum nodes), rest)
      | _ => none
    | _ => none

end

end SourceAudit.Toml
