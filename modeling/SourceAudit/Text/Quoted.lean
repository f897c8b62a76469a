/-
  SourceAudit/Text/Quoted.lean
  ============================
  **Texts quoted in messages.**

  A message that quotes a text of a document writes it between double quotes, with
  a backslash before quotes and backslashes, letters for the common control
  characters, and the code point in braces for every other character that shows
  nothing of its own.
-/
import SourceAudit.Text.Invisible

namespace SourceAudit.Text

def hexDigits (n : Nat) : List Char := Nat.toDigits 16 n

def quotedChar (c : Char) : List Char :=
  if c = '"' then ['\\', '"']
  else if c = '\\' then ['\\', '\\']
  else if c = '\n' then ['\\', 'n']
  else if c = '\r' then ['\\', 'r']
  else if c = '\t' then ['\\', 't']
  else if c.toNat = 0 then ['\\', '0']
  else if isInvisible c then '\\' :: 'u' :: '\x7b' :: hexDigits c.toNat ++ ['\x7d']
  else [c]

def quoted (s : String) : String :=
  String.ofList ('"' :: s.toList.flatMap quotedChar ++ ['"'])

end SourceAudit.Text
