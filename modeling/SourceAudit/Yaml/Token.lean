/-
  SourceAudit/Yaml/Token.lean
  ===========================
  **The tokens of a YAML text.**

  Besides what is written, tokens tell where indented collections start and end.
  Whether a text is the key of a mapping is only known at the colon behind it, so
  the reader remembers, for each flow collection around the place, where the last
  possible key began; at the colon it puts the missing tokens there.  A key without
  a question mark stands on one line and has at most 1024 characters.
-/
import SourceAudit.Yaml.Scalar

namespace SourceAudit.Yaml

inductive Token where
  | version (major minor : Nat)            -- a `%YAML` line
  | handle (name start : List Char)        -- a `%TAG` line
  | documentStart                          -- `---`
  | documentEnd                            -- `...`
  | textEnd                                -- the end of the text
  | sequenceStart                          -- a sequence begins with this column
  | mappingStart                           -- a mapping begins with this column
  | blockEnd                               -- the innermost of them ends
  | openList                               -- `[`
  | closeList                              -- `]`
  | openTable                              -- `{`
  | closeTable                             -- `}`
  | item                                   -- `-`
  | comma                                  -- `,`
  | key                                    -- `?`, or the start of a key
  | colon                                  -- `:`
  | reference (name : List Char)           -- `*name`
  | anchor (name : List Char)              -- `&name`
  | typeName (handle rest : List Char)     -- `!…`
  | text (isPlain : Bool) (value : List Char)
deriving DecidableEq, Repr

/-- Where a key may have begun. -/
structure PossibleKey where
  /-- How many tokens stand before it. -/
  position : Nat
  line : Nat
  index : Nat
  column : Nat
  /-- Nothing but a key can stand there. -/
  required : Bool
deriving Repr

structure Scan where
  place : Cursor
  /-- The tokens so far, last first. -/
  tokens : List Token
  count : Nat
  /-- The column of the innermost indented collection; -1 outside of all. -/
  indent : Int
  outerIndents : List Int
  /-- A key may begin at the place. -/
  keyAllowed : Bool
  /-- The possible key of each flow collection around the place, innermost first,
      and at last the one outside of them. -/
  keys : List (Option PossibleKey)

namespace Scan

def start (s : List Char) : Scan := ⟨Cursor.start s, [], 0, -1, [], true, [none]⟩

def inFlow (s : Scan) : Bool := 1 < s.keys.length

def push (s : Scan) (t : Token) : Scan := { s with tokens := t :: s.tokens, count := s.count + 1 }

/-- Adds a token behind the first `position` ones. -/
def insert (s : Scan) (position : Nat) (t : Token) : Scan :=
  let later := s.count - position
  { s with
    tokens := s.tokens.take later ++ t :: s.tokens.drop later
    count := s.count + 1 }

def moveTo (s : Scan) (c : Cursor) : Scan := { s with place := c }

/-! ### Possible keys -/

/-- The key is still on the line of the place and not too long. -/
def PossibleKey.isFresh (k : PossibleKey) (c : Cursor) : Bool :=
  k.line = c.line && c.index ≤ k.index + 1024

def dropStaleKeys? (s : Scan) : Option Scan :=
  let isStale := fun k : Option PossibleKey => k.any fun k => !PossibleKey.isFresh k s.place
  if s.keys.any fun k => isStale k && k.any PossibleKey.required then none
  else some { s with keys := s.keys.map fun k => if isStale k then none else k }

def dropKey? (s : Scan) : Option Scan :=
  match s.keys with
  | some k :: rest => if k.required then none else some { s with keys := none :: rest }
  | _ => some s

def noteKey? (s : Scan) : Option Scan :=
  if !s.keyAllowed then some s
  else do
    let s ← s.dropKey?
    let required := !s.inFlow && s.indent = s.place.column
    let k : PossibleKey := ⟨s.count, s.place.line, s.place.index, s.place.column, required⟩
    return { s with keys := some k :: s.keys.tail }

/-! ### Indentation -/

/-- Ends the indented collections that start behind a column. -/
def unroll (s : Scan) (column : Int) : Scan :=
  if s.inFlow then s else go s s.outerIndents
where
  go (s : Scan) : List Int → Scan
    | [] => s
    | outer :: rest =>
      if column < s.indent then
        go { s.push .blockEnd with indent := outer, outerIndents := rest } rest
      else s

/-- Starts an indented collection at a column, unless it goes on there; its token goes
    behind the first `position` ones, or to the end. -/
def roll (s : Scan) (column : Nat) (position : Option Nat) (t : Token) : Scan :=
  if s.inFlow || (column : Int) ≤ s.indent then s
  else
    let s := { s with outerIndents := s.indent :: s.outerIndents, indent := column }
    position.elim (s.push t) fun p => s.insert p t

/-! ### Directives and types -/

def versionNumber? (c : Cursor) : Option (Nat × Cursor) :=
  let (digits, c) := c.takeWhile Char.isDigit
  if digits.isEmpty || 9 < digits.length then none
  else some (digits.foldl (fun n d => 10 * n + (d.toNat - 48)) 0, c)

def lineRest? (c : Cursor) : Option Cursor :=
  let c := c.skipComment
  match c.lineBreak? with
  | some (_, next) => some next
  | none => if c.rest.isEmpty then some c else none

/-- A character of the name of a type; inside `<…>` there are some more. -/
def isTypeChar (verbatim : Bool) (c : Char) : Bool :=
  isNameChar c || ";/?:@&=+$.!~*'()".toList.contains c || (verbatim && ",[]".toList.contains c)

/-- The name of a type: characters, and bytes in hexadecimal behind percent signs. -/
def typeChars? (verbatim : Bool) : List Char → Option (Nat × List Char)
  | [] => some (0, [])
  | '%' :: a :: b :: rest => do
    let byte ← Text.hexRun? [a, b]
    let (taken, more) ← typeChars? verbatim rest
    if byte < 0x80 then some (taken + 3, Char.ofNat byte :: more) else none
  | c :: rest =>
    if c = '%' then none
    else if isTypeChar verbatim c then
      (typeChars? verbatim rest).map fun r => (r.1 + 1, c :: r.2)
    else some (0, [])

/-- A handle: an exclamation mark, a name, and perhaps a second exclamation mark. -/
def handle? (c : Cursor) : Option (List Char × Cursor) :=
  if c.isAt '!' then
    let (name, c) := (c.skip 1).takeWhile isNameChar
    if c.isAt '!' then some ('!' :: name ++ ['!'], c.skip 1) else some ('!' :: name, c)
  else none

def directive? (c : Cursor) : Option (Token × Cursor) := do
  let (name, c) := (c.skip 1).takeWhile isNameChar
  if name.isEmpty || !endsWord c.rest then none
  else if name = "YAML".toList then
    let (major, c) ← versionNumber? (c.skipWhile isSpace)
    if c.isAt '.' then
      let (minor, c) ← versionNumber? (c.skip 1)
      return (.version major minor, ← lineRest? c)
    else none
  else if name = "TAG".toList then
    let (name, c) ← handle? (c.skipWhile isSpace)
    if name ≠ ['!'] && (name.length < 2 || name.getLast? ≠ some '!') then none
    else if !c.head?.any isSpace then none
    else
      let c := c.skipWhile isSpace
      let (taken, start) ← typeChars? true c.rest
      let c := c.skip taken
      if taken = 0 || !endsWord c.rest then none
      else return (.handle name start, ← lineRest? c)
  else none

def type? (inFlow : Bool) (c : Cursor) : Option (Token × Cursor) := do
  let (token, c) ←
    if "!<".toList.isPrefixOf c.rest then do
      let (taken, name) ← typeChars? true (c.skip 2).rest
      let c := c.skip (2 + taken)
      if taken = 0 || !c.isAt '>' then none else pure (Token.typeName [] name, c.skip 1)
    else do
      let (name, c) ← handle? c
      let (taken, rest) ← typeChars? false c.rest
      let c := c.skip taken
      if 1 < name.length && name.getLast? = some '!' then
        if taken = 0 then none else pure (Token.typeName name rest, c)
      else
        let rest := name.tail ++ rest
        pure (if rest.isEmpty then Token.typeName [] ['!'] else Token.typeName ['!'] rest, c)
  if endsWord c.rest || (inFlow && c.isAt ',') then some (token, c) else none

def anchorName? (c : Cursor) : Option (List Char × Cursor) :=
  let (name, c) := c.takeWhile isNameChar
  if name.isEmpty then none
  else if endsWord c.rest || c.head?.any ("?:,]\x7d%@`".toList.contains ·) then some (name, c)
  else none

/-! ### One token after the other -/

/-- Passes blanks, comments and line breaks.  A tab cannot stand where a key may. -/
def toNext : (steps : Nat) → Scan → Scan
  | 0, s => s
  | steps + 1, s =>
    let passes := fun x => x = ' ' || (x = '\t' && (s.inFlow || !s.keyAllowed))
    let c := s.place.skipWhile passes
    let c := if c.isAt '#' then c.skipWhile fun x => !isBreak x else c
    match c.lineBreak? with
    | some (_, next) =>
      toNext steps { s with place := next, keyAllowed := s.keyAllowed || !s.inFlow }
    | none => s.moveTo c

/-- A token that ends all indented collections and allows no key. -/
def outermost? (s : Scan) : Option Scan := do
  let s ← (s.unroll (-1)).dropKey?
  return { s with keyAllowed := false }

def mark (s : Scan) (n : Nat) (t : Token) : Scan := (s.moveTo (s.place.skip n)).push t

def openFlow? (s : Scan) (t : Token) : Option Scan := do
  let s ← s.noteKey?
  return { s with keys := none :: s.keys, keyAllowed := true }.mark 1 t

def closeFlow? (s : Scan) (t : Token) : Option Scan := do
  let s ← s.dropKey?
  let keys := if s.inFlow then s.keys.tail else s.keys
  return { s with keys := keys, keyAllowed := false }.mark 1 t

def item? (s : Scan) : Option Scan := do
  if !s.inFlow && !s.keyAllowed then none
  else
    let s ← (s.roll s.place.column none .sequenceStart).dropKey?
    return { s with keyAllowed := true }.mark 1 .item

def questionMark? (s : Scan) : Option Scan := do
  if !s.inFlow && !s.keyAllowed then none
  else
    let s ← (s.roll s.place.column none .mappingStart).dropKey?
    return { s with keyAllowed := !s.inFlow }.mark 1 .key

/-- A colon: what began at the possible key is a key. -/
def colon? (s : Scan) : Option Scan :=
  match s.keys with
  | some k :: rest =>
    let s := (s.insert k.position .key).roll k.column (some k.position) .mappingStart
    some ({ s with keys := none :: rest, keyAllowed := false }.mark 1 .colon)
  | _ =>
    if !s.inFlow && !s.keyAllowed then none
    else
      let s := s.roll s.place.column none .mappingStart
      some ({ s with keyAllowed := !s.inFlow }.mark 1 .colon)

def valueToken? (s : Scan) (read : Cursor → Option (Token × Cursor)) : Option Scan := do
  let s ← s.noteKey?
  let (t, c) ← read s.place
  return { s with place := c, keyAllowed := false }.push t

def plainToken? (s : Scan) : Option Scan := do
  let s ← s.noteKey?
  let p ← plain? s.inFlow (s.indent + 1) s.place
  return { s with place := p.after, keyAllowed := p.crossed }.push (.text true p.text)

def blockToken? (s : Scan) (folded : Bool) : Option Scan := do
  let s ← s.dropKey?
  let (text, c) ← block? folded s.indent (s.place.skip 1)
  return { s with place := c, keyAllowed := true }.push (.text false text)

def startsPlain (s : Scan) (x : Char) (rest : List Char) : Bool :=
  (!isEdge x && !"-?:,[]\x7b\x7d#&*!|>'\"%@`".toList.contains x) ||
    (x = '-' && !rest.head?.any isSpace) ||
    (!s.inFlow && (x = '?' || x = ':') && !endsWord rest)

def next? (s : Scan) : Option Scan := do
  let s := toNext (s.place.rest.length + 1) s
  let s ← s.dropStaleKeys?
  let s := s.unroll s.place.column
  match s.place.rest with
  | [] =>
    let s ← s.outermost?
    return s.push .textEnd
  | x :: rest =>
    if s.place.column = 0 && x = '%' then
      let s ← s.outermost?
      let (t, c) ← directive? s.place
      return (s.moveTo c).push t
    else if s.place.startsLineWith ['-', '-', '-'] then
      return (← s.outermost?).mark 3 .documentStart
    else if s.place.startsLineWith ['.', '.', '.'] then
      return (← s.outermost?).mark 3 .documentEnd
    else if x = '[' then s.openFlow? .openList
    else if x = '\x7b' then s.openFlow? .openTable
    else if x = ']' then s.closeFlow? .closeList
    else if x = '\x7d' then s.closeFlow? .closeTable
    else if x = ',' then do
      let s ← s.dropKey?
      return { s with keyAllowed := true }.mark 1 .comma
    else if x = '-' && endsWord rest then s.item?
    else if x = '?' && (s.inFlow || endsWord rest) then s.questionMark?
    else if x = ':' && (s.inFlow || endsWord rest) then s.colon?
    else if x = '*' then
      s.valueToken? fun c => (anchorName? (c.skip 1)).map fun r => (.reference r.1, r.2)
    else if x = '&' then
      s.valueToken? fun c => (anchorName? (c.skip 1)).map fun r => (.anchor r.1, r.2)
    else if x = '!' then s.valueToken? (type? s.inFlow)
    else if x = '|' && !s.inFlow then s.blockToken? false
    else if x = '>' && !s.inFlow then s.blockToken? true
    else if x = '\'' || x = '"' then
      s.valueToken? fun c => (quoted? x c).map fun r => (.text false r.1, r.2)
    else if s.startsPlain x rest then s.plainToken?
    else none

/-- Reads tokens up to the end of the text.  Every step but the last passes a
    character. -/
def toEnd? : (steps : Nat) → Scan → Option Scan
  | 0, _ => none
  | steps + 1, s => do
    let s ← s.next?
    if s.tokens.head? = some .textEnd then some s else toEnd? steps s

end Scan

def tokens? (s : List Char) : Option (List Token) :=
  let s := match s with
    | c :: rest => if c.toNat = 0xFEFF then rest else c :: rest
    | [] => []
  if s.all isAllowed then
    ((Scan.start s).toEnd? (s.length + 2)).map fun final => final.tokens.reverse
  else none

end SourceAudit.Yaml
