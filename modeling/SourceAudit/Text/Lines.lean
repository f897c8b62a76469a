/-
  SourceAudit/Text/Lines.lean
  ===========================
  **Splitting a text into lines.**

  A line ends at a line feed.  A carriage return directly before that line feed
  belongs to the line end; one at the very end of the text does not, because no
  line feed follows it.  Text after the last line feed is a line of its own when
  there is any, so the empty text has no line at all.
-/

namespace SourceAudit.Text

/-- The pieces between line feeds, each with whether a line feed ended it. -/
def pieces : List Char → List (List Char × Bool)
  | [] => []
  | c :: rest =>
    if c = '\n' then ([], true) :: pieces rest
    else match pieces rest with
      | [] => [([c], false)]
      | (piece, ended) :: more => (c :: piece, ended) :: more

/-- The text without one final carriage return. -/
def dropReturn (s : List Char) : List Char :=
  if s.getLast? = some '\r' then s.dropLast else s

/-- The content of one piece: the carriage return goes with the line feed. -/
def pieceText : List Char × Bool → List Char
  | (piece, true) => dropReturn piece
  | (piece, false) => piece

def lines (s : List Char) : List (List Char) :=
  (pieces s).map pieceText

def lineFeeds (s : List Char) : Nat :=
  s.count '\n'

end SourceAudit.Text
