/-
  SourceAudit/Text/Column.lean
  ============================
  **Texts in columns.**
-/

namespace SourceAudit.Text

def padded (width : Nat) (s : String) : String :=
  String.ofList (s.toList ++ List.replicate (width - s.length) ' ')

/-- Two columns, the first one as wide as its widest entry. -/
def twoColumns (rows : List (String × String)) : List String :=
  let width := (rows.map fun r => r.1.length).foldl max 0
  rows.map fun r => padded width r.1 ++ "  " ++ r.2

end SourceAudit.Text
