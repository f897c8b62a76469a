/-
  SourceAudit/IgnorePattern.lean
  ==============================
  **The patterns of ignore files.**

  A line of an ignore file is a pattern over the bytes of a path.  It has wildcards
  of its own: `**` fills whole segments at the start, in the middle or at the end,
  braces hold alternatives, and a backslash takes the next character as it is.  A
  line may also negate (`!`), be anchored (`/` at the start or inside), or ask for
  directories only (`/` at the end).  Of the lines of one file the last that
  matches decides.
-/
import SourceAudit.Text.Blank
import SourceAudit.Text.Search

namespace SourceAudit

namespace IgnorePattern

inductive Token where
  | byte (b : UInt8)                                          -- exactly this byte
  | anyByte                                                   -- `?`
  | anyRun                                                    -- `*`
  | leadingSegments                                           -- `**/` at the start
  | innerSegments                                             -- `/**/`
  | trailingSegments                                          -- `/**` at the end
  | oneOf (negated : Bool) (ranges : List (UInt8 × UInt8))    -- `[…]`
  | alternatives (branches : List (List Token))               -- `{…,…}`
deriving Repr

def slash : UInt8 := 0x2F

/-! ### Matching -/

/-- `next` accepts the text behind some slash. -/
def behindSlash (next : List UInt8 → Bool) : List UInt8 → Bool
  | [] => false
  | b :: rest => (b = slash && next rest) || behindSlash next rest

/-- `next` accepts the text behind some run without a slash. -/
def behindRun (next : List UInt8 → Bool) : List UInt8 → Bool
  | [] => next []
  | b :: rest => next (b :: rest) || (b ≠ slash && behindRun next rest)

/-- `next` accepts some end of the text. -/
def someEnd (next : List UInt8 → Bool) : List UInt8 → Bool
  | [] => next []
  | b :: rest => next (b :: rest) || someEnd next rest

mutual

/-- The text starts with a match of the token behind which `next` accepts. -/
def Token.matchThen (next : List UInt8 → Bool) : Token → List UInt8 → Bool
  | .byte b, text => match text with
    | c :: rest => b = c && next rest
    | [] => false
  | .anyByte, text => match text with
    | c :: rest => c ≠ slash && next rest
    | [] => false
  | .anyRun, text => behindRun next text
  | .leadingSegments, text => next text || behindSlash next text
  | .innerSegments, text => match text with
    | c :: rest => c = slash && (next rest || behindSlash next rest)
    | [] => false
  | .trailingSegments, text => match text with
    | c :: rest => c = slash && someEnd next rest
    | [] => false
  | .oneOf negated ranges, text => match text with
    | c :: rest => (ranges.any (fun r => r.1 ≤ c && c ≤ r.2) != negated) && next rest
    | [] => false
  | .alternatives branches, text => anyBranch next branches text

/-- The text starts with a match of all tokens in a row. -/
def allThen (next : List UInt8 → Bool) : List Token → List UInt8 → Bool
  | [], text => next text
  | t :: rest, text => t.matchThen (allThen next rest) text

def anyBranch (next : List UInt8 → Bool) : List (List Token) → List UInt8 → Bool
  | [], _ => false
  | branch :: rest, text => allThen next branch text || anyBranch next rest text

end

/-- The whole text matches; `**` alone matches everything. -/
def matchesAll (tokens : List Token) (text : List UInt8) : Bool :=
  match tokens with
  | [.leadingSegments] => true
  | _ => allThen (·.isEmpty) tokens text

/-! ### Reading -/

def charBytes (c : Char) : List UInt8 := (String.ofList [c]).toUTF8.toList

/-- The byte ranges of a class entry: a character beyond ASCII counts as its bytes. -/
def rangeBytes (first last : Char) : List (UInt8 × UInt8) :=
  let low := charBytes first
  let high := charBytes last
  if first = last then low.map fun b => (b, b)
  else
    (low.dropLast.map fun b => (b, b)) ++
      [(low.getLastD 0, high.headD 0)] ++ (high.tail.map fun b => (b, b))

/-- The entries of a class and the text behind its `]`.  The first character belongs
    to the class whatever it is; a range that runs backwards is refused. -/
def classEntries (isFirst inRange : Bool) (entries : List (Char × Char)) :
    List Char → Option (Except Unit (List (Char × Char) × List Char))
  | [] => none
  | c :: rest =>
    if c = ']' && !isFirst then
      some (.ok ((if inRange then ('-', '-') :: entries else entries).reverse, rest))
    else if c = '-' && !isFirst && !inRange then classEntries false true entries rest
    else if inRange then
      match entries with
      | (first, _) :: more =>
        if c < first then some (.error ()) else classEntries false false ((first, c) :: more) rest
      | [] => classEntries false false [(c, c)] rest
    else classEntries false false ((c, c) :: entries) rest

/-- The alternatives being read: for each open brace the finished branches and the
    tokens before the brace, and the tokens of the current branch, last token first. -/
structure Partial where
  outer : List (List Token × List (List Token))
  current : List Token

def Partial.push (p : Partial) (t : Token) : Partial := { p with current := t :: p.current }

def Partial.pushChar (p : Partial) (c : Char) : Partial :=
  (charBytes c).foldl (fun p b => p.push (.byte b)) p

/-- Closes the innermost brace; branches without a token do not count. -/
def Partial.close? (p : Partial) : Option Partial :=
  match p.outer with
  | [] => none
  | (before, done) :: outer =>
    let branches := ((p.current.reverse :: done).reverse).filter fun b => !b.isEmpty
    some ⟨outer, if branches.isEmpty then before else .alternatives branches :: before⟩

/-- Replaces the slash before `**` by the run of segments. -/
def Partial.pushSegments (p : Partial) (t : Token) : Partial :=
  match p.current with
  | .leadingSegments :: _ => p
  | .trailingSegments :: _ => p
  | _ :: rest => { p with current := t :: rest }
  | [] => { p with current := [t] }

/-- Reads tokens.  `previous` is the character before the reading position, and
    `literalBrackets` is set once a class was found without an end: from there on a
    bracket stands for itself.  Every step takes a character, so as many steps as
    there are characters suffice. -/
def readSteps : Nat → Bool → Option Char → Partial → List Char → Option (List Token)
  | _, _, _, p, [] => if p.outer.isEmpty then some p.current.reverse else none
  | 0, _, _, _, _ :: _ => none
  | steps + 1, literalBrackets, previous, p, c :: rest =>
    if c = '?' then readSteps steps literalBrackets (some c) (p.push .anyByte) rest
    else if c = '*' then
      match rest with
      | '*' :: after =>
        let plain := fun (_ : Unit) =>
          readSteps steps literalBrackets (some '*') ((p.push .anyRun).push .anyRun) after
        if p.current.isEmpty then
          match after with
          | [] => readSteps steps literalBrackets (some '*') (p.push .leadingSegments) []
          | '/' :: behind =>
            readSteps steps literalBrackets (some '/') (p.push .leadingSegments) behind
          | _ => plain ()
        else if previous ≠ some '/' &&
            (p.outer.isEmpty || (previous ≠ some ',' && previous ≠ some '\x7b')) then plain ()
        else match after with
          | [] => readSteps steps literalBrackets (some '*') (p.pushSegments .trailingSegments) []
          | '/' :: behind =>
            readSteps steps literalBrackets (some '/') (p.pushSegments .innerSegments) behind
          | d :: _ =>
            if (d = ',' || d = '\x7d') && !p.outer.isEmpty then
              readSteps steps literalBrackets (some '*') (p.pushSegments .trailingSegments) after
            else plain ()
      | _ => readSteps steps literalBrackets (some c) (p.push .anyRun) rest
    else if c = '[' && !literalBrackets then
      let (negated, body) := match rest with
        | '!' :: body => (true, body)
        | '^' :: body => (true, body)
        | body => (false, body)
      match classEntries true false [] body with
      | none => readSteps steps true (some c) (p.pushChar c) rest
      | some (.error _) => none
      | some (.ok (entries, behind)) =>
        let ranges := entries.flatMap fun e => rangeBytes e.1 e.2
        readSteps steps literalBrackets (some ']') (p.push (.oneOf negated ranges)) behind
    else if c = '\x7b' then
      readSteps steps literalBrackets (some c) ⟨(p.current, []) :: p.outer, []⟩ rest
    else if c = '\x7d' then
      match p.close? with
      | none => none
      | some p => readSteps steps literalBrackets (some c) p rest
    else if c = ',' then
      match p.outer with
      | [] => readSteps steps literalBrackets (some c) (p.pushChar c) rest
      | (before, done) :: outer =>
        readSteps steps literalBrackets (some c)
          ⟨(before, p.current.reverse :: done) :: outer, []⟩ rest
    else if c = '\\' then
      match rest with
      | [] => none
      | d :: behind => readSteps steps literalBrackets (some d) (p.pushChar d) behind
    else readSteps steps literalBrackets (some c) (p.pushChar c) rest

def tokens? (pattern : List Char) : Option (List Token) :=
  readSteps pattern.length false none ⟨[], []⟩ pattern

end IgnorePattern

structure IgnorePattern where
  tokens : List IgnorePattern.Token
  /-- The line takes a path out of what earlier lines ignore. -/
  keeps : Bool
  /-- The line is about directories only. -/
  directoriesOnly : Bool
deriving Repr

namespace IgnorePattern

def atEveryDepth (anchored : Bool) (pattern : List Char) : List Char :=
  if anchored || pattern.contains '/' then pattern
  else if pattern = ['*', '*'] then pattern
  else '*' :: '*' :: '/' :: pattern

/-- A pattern that ends in `/**` is about the inside of the directory only. -/
def insideOnly (pattern : List Char) : List Char :=
  if ['*', '*', '/'].isPrefixOf pattern.reverse then pattern ++ ['/', '*'] else pattern

/-- Drops a final slash and a backslash before it; `true` when there was one. -/
def splitFinalSlash (pattern : List Char) : Bool × List Char :=
  match pattern.reverse with
  | '/' :: '\\' :: rest => (true, rest.reverse)
  | '/' :: rest => (true, rest.reverse)
  | _ => (false, pattern)

/-- Reads one line: nothing for a blank line, a comment and a malformed pattern. -/
def ofLine? (line : List Char) : Option IgnorePattern :=
  if line.head? = some '#' then none
  else
    let line := if ['\\', ' '].reverse.isPrefixOf line.reverse then line else Text.trimEnd line
    if line.isEmpty then none
    else
      let (keeps, anchored, body) := match line with
        | '\\' :: '!' :: rest => (false, false, '!' :: rest)
        | '\\' :: '#' :: rest => (false, false, '#' :: rest)
        | '!' :: '/' :: rest => (true, true, rest)
        | '!' :: rest => (true, false, rest)
        | '/' :: rest => (false, true, rest)
        | rest => (false, false, rest)
      let (directoriesOnly, body) := splitFinalSlash body
      (tokens? (insideOnly (atEveryDepth anchored body))).map fun tokens =>
        ⟨tokens, keeps, directoriesOnly⟩

/-- What the lines of one file say about a path: ignored, kept, or nothing.  The last
    line that matches decides. -/
def decide? (patterns : List IgnorePattern) (path : List UInt8) (isDirectory : Bool) :
    Option Bool :=
  (patterns.reverse.find? fun p =>
    (isDirectory || !p.directoriesOnly) && matchesAll p.tokens path).map fun p => !p.keeps

end IgnorePattern

end SourceAudit
