/-
  SourceAudit/Glob.lean
  =====================
  **Glob patterns for slash-separated paths.**

  A pattern is a list of tokens.  `?` is one character, `*` a run of characters,
  `[…]` and `[!…]` one character inside or outside a class, and `**`, which must
  fill a whole path segment, any number of segments.  Every other character stands
  for itself.

  Matching backtracks over the two kinds of runs.  It tells apart that the rest of
  a pattern does not match *here* (a longer run may still help) from that it can
  *never* match because the text ran out, which ends the search at once.
-/
import SourceAudit.Text.Search

namespace SourceAudit

namespace Glob

/-! ### Tokens -/

inductive ClassItem where
  | single (c : Char)
  | range (first last : Char)
deriving DecidableEq, Repr

inductive Token where
  | literal (c : Char)                      -- exactly this character
  | anyChar                                 -- `?`
  | anyRun                                  -- `*`
  | anySegments                             -- `**`, with the slash after it
  | oneOf (items : List ClassItem)          -- `[…]`
  | noneOf (items : List ClassItem)         -- `[!…]`
deriving DecidableEq, Repr

/-! ### Reading a pattern -/

inductive Fault where
  | tooManyStars       -- three or more stars in a row
  | partialSegment     -- `**` beside something other than a slash
  | unclosedClass      -- `[` without a matching `]`
deriving DecidableEq, Repr

/-- A fault and the character position it is reported at. -/
structure SyntaxError where
  position : Nat
  fault : Fault
deriving DecidableEq, Repr

def Fault.message : Fault → String
  | .tooManyStars => "wildcards are either regular `*` or recursive `**`"
  | .partialSegment => "recursive wildcards must form a single path component"
  | .unclosedClass => "invalid range pattern"

def SyntaxError.message (e : SyntaxError) : String :=
  s!"Pattern syntax error near position {e.position}: {e.fault.message}"

/-- The entries of a class: `a-z` is a range, any other character is itself. -/
def classItems : List Char → List ClassItem
  | first :: '-' :: last :: rest => .range first last :: classItems rest
  | c :: rest => .single c :: classItems rest
  | [] => []

/-- Where the reader is: outside of classes, or in the class opened at a position. -/
inductive Place where
  | outside
  | inClass (opened : Nat) (negated : Bool) (content : List Char)

/-- Adds `**`, unless one was just added after an earlier token. -/
def pushSegments (tokens : List Token) : List Token :=
  match tokens with
  | .anySegments :: _ :: _ => tokens
  | _ => .anySegments :: tokens

/-- The reading position is at the start of a segment. -/
def startsSegment (previous : Option Char) : Bool := previous.all (· = '/')

/-- Reads the tokens.  `previous` is the character before the reading position and
    `tokens` what was read so far, last token first.  The first character of a class
    belongs to it whatever it is. -/
def readFrom : Place → Nat → Option Char → List Token → List Char →
    Except SyntaxError (List Token)
  | .outside, _, _, tokens, [] => .ok tokens.reverse
  | .inClass opened _ _, _, _, _, [] => .error ⟨opened, .unclosedClass⟩
  | .inClass opened negated [], position, _, tokens, c :: rest =>
    if c = '!' && !negated then
      readFrom (.inClass opened true []) (position + 1) (some c) tokens rest
    else readFrom (.inClass opened negated [c]) (position + 1) (some c) tokens rest
  | .inClass opened negated content, position, _, tokens, c :: rest =>
    if c = ']' then
      let items := classItems content.reverse
      let token := if negated then Token.noneOf items else Token.oneOf items
      readFrom .outside (position + 1) (some c) (token :: tokens) rest
    else readFrom (.inClass opened negated (c :: content)) (position + 1) (some c) tokens rest
  | .outside, position, _, _, '*' :: '*' :: '*' :: _ => .error ⟨position + 2, .tooManyStars⟩
  | .outside, position, previous, tokens, ['*', '*'] =>
    if startsSegment previous then .ok (pushSegments tokens).reverse
    else .error ⟨position - 1, .partialSegment⟩
  | .outside, position, previous, tokens, '*' :: '*' :: '/' :: rest =>
    if startsSegment previous then
      readFrom .outside (position + 3) (some '/') (pushSegments tokens) rest
    else .error ⟨position - 1, .partialSegment⟩
  | .outside, position, previous, _, '*' :: '*' :: _ :: _ =>
    .error ⟨if startsSegment previous then position + 2 else position - 1, .partialSegment⟩
  | .outside, position, _, tokens, c :: rest =>
    if c = '[' then readFrom (.inClass position false []) (position + 1) (some c) tokens rest
    else
      let token := match c with
        | '?' => Token.anyChar
        | '*' => Token.anyRun
        | c => Token.literal c
      readFrom .outside (position + 1) (some c) (token :: tokens) rest

end Glob

structure Glob where
  tokens : List Glob.Token
deriving DecidableEq, Repr

namespace Glob

def read (pattern : String) : Except SyntaxError Glob :=
  (readFrom .outside 0 none [] pattern.toList).map Glob.mk

/-- The pattern uses a wildcard.  Brackets alone do not make a pattern a glob. -/
def hasWildcard (pattern : List Char) : Bool :=
  pattern.any fun c => c = '*' || c = '?'

/-! ### Matching -/

/-- Whether a run of `*`, a `?` or a class may stand for a slash. -/
inductive Slashes where
  | separate    -- a slash is only matched by a slash or by `**`
  | ordinary    -- a slash is a character like any other
deriving DecidableEq, Repr

/-- The outcome of matching the rest of a pattern at one place. -/
inductive Verdict where
  | found
  | notHere    -- it does not match here, but may after a longer run
  | never      -- the text ran out: no longer run can help
deriving DecidableEq, Repr

def ClassItem.holds (c : Char) : ClassItem → Bool
  | .single d => c = d
  | .range first last => first ≤ c && c ≤ last

def Token.accepts (slashes : Slashes) (c : Char) : Token → Bool
  | .literal d => c = d
  | .anyChar => !(slashes = .separate && c = '/')
  | .oneOf items => !(slashes = .separate && c = '/') && items.any (·.holds c)
  | .noneOf items => !(slashes = .separate && c = '/') && !items.any (·.holds c)
  | .anyRun => false
  | .anySegments => false

/-- Tries the rest of the pattern after runs of growing length. -/
def afterRun (slashes : Slashes) (rest : List Char → Verdict) : List Char → Verdict
  | [] => rest []
  | c :: text =>
    match rest (c :: text) with
    | .notHere => if slashes = .separate && c = '/' then .notHere else afterRun slashes rest text
    | verdict => verdict

/-- Tries the rest of the pattern behind every slash, and at last on the empty text. -/
def afterSlashes (rest : List Char → Verdict) : List Char → Verdict
  | [] => rest []
  | c :: text =>
    if c = '/' then
      match rest text with
      | .notHere => afterSlashes rest text
      | verdict => verdict
    else afterSlashes rest text

def matchTokens (slashes : Slashes) : List Token → List Char → Verdict
  | [], [] => .found
  | [], _ :: _ => .notHere
  | .anyRun :: tokens, text => afterRun slashes (matchTokens slashes tokens) text
  | .anySegments :: tokens, text =>
    match matchTokens slashes tokens text with
    | .notHere => afterSlashes (matchTokens slashes tokens) text
    | verdict => verdict
  | _ :: _, [] => .never
  | token :: tokens, c :: text =>
    if token.accepts slashes c then matchTokens slashes tokens text else .notHere

def matchesText (slashes : Slashes) (glob : Glob) (text : List Char) : Bool :=
  matchTokens slashes glob.tokens text = .found

end Glob

end SourceAudit
