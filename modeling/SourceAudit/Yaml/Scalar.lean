/-
  SourceAudit/Yaml/Scalar.lean
  ============================
  **The texts of a YAML document.**

  A text stands plainly, between quotes, or as a block of indented lines.  Within
  plain and quoted texts a line break with the blanks around it counts as one space,
  and each further line break as itself.  A folded block treats its lines alike,
  a literal block keeps them.
-/
import SourceAudit.Yaml.Cursor
import SourceAudit.Text.Hex

namespace SourceAudit.Yaml

/-! ### Gaps -/

/-- Blanks and line breaks between two words. -/
structure Gap where
  crossed : Bool
  /-- The blanks, as long as there is no line break. -/
  spaces : List Char
  first : List Char
  more : List Char
deriving Repr

namespace Gap

def empty : Gap := ⟨false, [], [], []⟩

def text (g : Gap) : List Char :=
  if g.crossed then
    if g.first = ['\n'] then if g.more.isEmpty then [' '] else g.more
    else g.first ++ g.more
  else g.spaces

/-- Reads on to the end of a gap.  Behind a line break, a tab before the column
    `tabLimit` is refused. -/
def read? (tabLimit : Int) : (steps : Nat) → Gap → Cursor → Option (Gap × Cursor)
  | 0, g, c => some (g, c)
  | steps + 1, g, c =>
    match c.lineBreak? with
    | some (b, next) =>
      read? tabLimit steps
        (if g.crossed then { g with more := g.more ++ [b] } else ⟨true, [], [b], []⟩) next
    | none =>
      match c.head? with
      | some x =>
        if !isSpace x then some (g, c)
        else if g.crossed then
          if x = '\t' && (c.column : Int) < tabLimit then none
          else read? tabLimit steps g (c.skip 1)
        else read? tabLimit steps { g with spaces := g.spaces ++ [x] } (c.skip 1)
      | none => some (g, c)

end Gap

/-! ### Plain texts -/

def isFlowMark (c : Char) : Bool := c = ',' || c = '[' || c = ']' || c = '{' || c = '}'

def plainWord? (flow : Bool) : List Char → Option (List Char)
  | [] => some []
  | c :: rest =>
    if isEdge c then some []
    else if flow && c = ':' && rest.head?.any (fun x => isFlowMark x || x = '?') then none
    else if (c = ':' && endsWord rest) || (flow && isFlowMark c) then some []
    else (plainWord? flow rest).map (c :: ·)

/-- A plain text, whether it ends behind a line break, and the place behind it. -/
structure PlainText where
  text : List Char
  crossed : Bool
  after : Cursor

/-- Reads on in a plain text.  `indent` is the least column of its further lines. -/
def plainFrom? (flow : Bool) (indent : Int) :
    (steps : Nat) → Cursor → Gap → List Char → Option PlainText
  | 0, _, _, _ => none
  | steps + 1, c, gap, text =>
    if c.isDocumentMark || c.isAt '#' then some ⟨text, gap.crossed, c⟩
    else do
      let word ← plainWord? flow c.rest
      let c := c.skip word.length
      let text := if word.isEmpty then text else text ++ gap.text ++ word
      if !c.head?.any isEdge then some ⟨text, word.isEmpty && gap.crossed, c⟩
      else
        let (gap, c) ← Gap.read? indent c.rest.length .empty c
        if !flow && (c.column : Int) < indent then some ⟨text, gap.crossed, c⟩
        else plainFrom? flow indent steps c gap text

def plain? (flow : Bool) (indent : Int) (c : Cursor) : Option PlainText :=
  plainFrom? flow indent (c.rest.length + 1) c .empty []

/-! ### Quoted texts -/

def shortEscape? : Char → Option Char
  | '0' => some (Char.ofNat 0)
  | 'a' => some (Char.ofNat 7)
  | 'b' => some (Char.ofNat 8)
  | 't' => some '\t'
  | '\t' => some '\t'
  | 'n' => some '\n'
  | 'v' => some (Char.ofNat 11)
  | 'f' => some (Char.ofNat 12)
  | 'r' => some '\r'
  | 'e' => some (Char.ofNat 27)
  | ' ' => some ' '
  | '"' => some '"'
  | '/' => some '/'
  | '\\' => some '\\'
  | 'N' => some (Char.ofNat 0x85)
  | '_' => some (Char.ofNat 0xA0)
  | 'L' => some (Char.ofNat 0x2028)
  | 'P' => some (Char.ofNat 0x2029)
  | _ => none

/-- A word of a quoted text, how many characters it takes, and whether a backslash
    before a line break ends it. -/
structure QuotedWord where
  text : List Char
  taken : Nat
  continued : Bool

namespace QuotedWord

def stop : QuotedWord := ⟨[], 0, false⟩

/-- Puts a character, written with `n` characters, before a word. -/
def before (n : Nat) (c : Option Char) (word : Option QuotedWord) : Option QuotedWord := do
  let c ← c
  let w ← word
  return ⟨c :: w.text, n + w.taken, w.continued⟩

def codePoint? (digits : List Char) : Option Char := (Text.hexRun? digits).bind Text.scalar?

def single? : List Char → Option QuotedWord
  | [] => some stop
  | '\'' :: '\'' :: rest => before 2 (some '\'') (single? rest)
  | c :: rest => if isEdge c || c = '\'' then some stop else before 1 (some c) (single? rest)

def double? : List Char → Option QuotedWord
  | [] => some stop
  | '\\' :: 'x' :: a :: b :: rest => before 4 (codePoint? [a, b]) (double? rest)
  | '\\' :: 'u' :: a :: b :: c :: d :: rest => before 6 (codePoint? [a, b, c, d]) (double? rest)
  | '\\' :: 'U' :: a :: b :: c :: d :: e :: f :: g :: h :: rest =>
    before 10 (codePoint? [a, b, c, d, e, f, g, h]) (double? rest)
  | '\\' :: c :: rest =>
    if isBreak c then some ⟨[], 0, true⟩ else before 2 (shortEscape? c) (double? rest)
  | c :: rest =>
    if isEdge c || c = '"' then some stop
    else if c = '\\' then none
    else before 1 (some c) (double? rest)

end QuotedWord

def quotedFrom? (quote : Char) : (steps : Nat) → Cursor → List Char → Option (List Char × Cursor)
  | 0, _, _ => none
  | steps + 1, c, text =>
    if c.isDocumentMark || c.rest.isEmpty then none
    else do
      let word ← if quote = '\'' then QuotedWord.single? c.rest else QuotedWord.double? c.rest
      let c := c.skip word.taken
      let text := text ++ word.text
      if c.isAt quote && !word.continued then some (text, c.skip 1)
      else
        let (gap, c) ← match word.continued, (c.skip 1).lineBreak? with
          | true, some (_, next) =>
            Gap.read? 0 next.rest.length ⟨true, [], [], []⟩ next
          | _, _ => Gap.read? 0 c.rest.length .empty c
        quotedFrom? quote steps c (text ++ gap.text)

def quoted? (quote : Char) (c : Cursor) : Option (List Char × Cursor) :=
  quotedFrom? quote (c.rest.length + 1) (c.skip 1) []

/-! ### Blocks -/

/-- What happens to the line breaks at the end of a block. -/
inductive Chomping where
  | strip     -- none stays
  | clip      -- one stays
  | keep      -- all stay
deriving DecidableEq, Repr

/-- The header of a block: how it ends, its indentation if given, and the place behind. -/
def blockHeader? (c : Cursor) : Option (Chomping × Option Nat × Cursor) := do
  let chomping? := fun (c : Cursor) =>
    if c.isAt '+' then some Chomping.keep else if c.isAt '-' then some Chomping.strip else none
  let digit? := fun (c : Cursor) => (c.head?.filter Char.isDigit).map fun x => x.toNat - 48
  let (chomping, digit, c) := match chomping? c, digit? c with
    | some m, _ =>
      match digit? (c.skip 1) with
      | some d => (m, some d, c.skip 2)
      | none => (m, none, c.skip 1)
    | none, some d =>
      match chomping? (c.skip 1) with
      | some m => (m, some d, c.skip 2)
      | none => (Chomping.clip, some d, c.skip 1)
    | none, none => (Chomping.clip, none, c)
  if digit = some 0 then none
  else
    let c := c.skipComment
    match c.lineBreak? with
    | some (_, next) => some (chomping, digit, next)
    | none => if c.rest.isEmpty then some (chomping, digit, c) else none

/-- Passes empty lines of a block: their breaks, the widest indentation seen, and the
    place of the next line with content.  `indent` is 0 while it is unknown. -/
def blockBreaks? (indent : Nat) :
    (steps widest : Nat) → Cursor → List Char → Option (List Char × Nat × Cursor)
  | 0, widest, c, breaks => some (breaks, widest, c)
  | steps + 1, widest, c, breaks =>
    let room := if indent = 0 then c.rest.length else indent - c.column
    let c := c.skip ((c.rest.take room).takeWhile (· = ' ')).length
    let widest := max widest c.column
    if (indent = 0 || c.column < indent) && c.isAt '\t' then none
    else
      match c.lineBreak? with
      | some (b, next) => blockBreaks? indent steps widest next (breaks ++ [b])
      | none => some (breaks, widest, c)

/-- The content of a block so far. -/
structure BlockText where
  text : List Char
  lastBreak : List Char
  /-- The breaks of empty lines behind it. -/
  breaks : List Char
  /-- The last line started with a blank. -/
  indented : Bool

def blockLines? (folded : Bool) (indent : Nat) :
    (steps : Nat) → Cursor → BlockText → Option (BlockText × Cursor)
  | 0, c, b => some (b, c)
  | steps + 1, c, b =>
    if c.column ≠ indent || c.rest.isEmpty then some (b, c)
    else
      let startsBlank := c.head?.any isSpace
      let joint :=
        if folded && b.lastBreak = ['\n'] && !b.indented && !startsBlank then
          if b.breaks.isEmpty then [' '] else []
        else b.lastBreak
      let (line, c) := c.takeWhile fun x => !isBreak x
      let text := b.text ++ joint ++ b.breaks ++ line
      let (lastBreak, c) := match c.lineBreak? with
        | some (x, next) => ([x], next)
        | none => ([], c)
      match blockBreaks? indent c.rest.length 0 c [] with
      | none => none
      | some (breaks, _, c) =>
        blockLines? folded indent steps c ⟨text, lastBreak, breaks, startsBlank⟩

/-- Reads a block behind its mark, inside lines with the indentation `outer`. -/
def block? (folded : Bool) (outer : Int) (c : Cursor) : Option (List Char × Cursor) := do
  let (chomping, digit, c) ← blockHeader? c
  let given := digit.elim 0 fun d => (if 0 ≤ outer then outer + d else d).toNat
  let (breaks, widest, c) ← blockBreaks? given (c.rest.length + 1) 0 c []
  let indent := if given ≠ 0 then given else max (max widest (outer + 1).toNat) 1
  let (b, c) ← blockLines? folded indent (c.rest.length + 1) c ⟨[], [], breaks, false⟩
  let ending := match chomping with
    | .strip => []
    | .clip => b.lastBreak
    | .keep => b.lastBreak ++ b.breaks
  return (b.text ++ ending, c)

end SourceAudit.Yaml
