/-
  SourceAudit/Config/Document.lean
  ================================
  **Configurations from TOML and JSON.**

  A configuration is read from a text in one of the two formats.  A file is JSON
  when its extension says so, in any case, and TOML otherwise; patterns of its
  exceptions may be relative to its directory, which is kept without `.` and `..`.
-/
import SourceAudit.Config.Validation
import SourceAudit.Toml.Reader
import SourceAudit.Json.Reader

namespace SourceAudit

namespace Config

def ofDocument? (excess : Shape.Excess) (document : Option Datum) : Checked Config :=
  match document with
  | none => Checked.fail .malformed
  | some d =>
    match ConfigDraft.ofDatum excess d with
    | .error _ => Checked.fail .malformed
    | .ok draft => draft.check

def ofToml (s : String) : Checked Config := ofDocument? .ignored (Toml.read? s)

def ofJson (s : String) : Checked Config := ofDocument? .refused (Json.read? s)

def isJsonPath (p : Path) : Bool :=
  p.extension?.any fun e => Text.lowerAscii e.toList = "json".toList

/-- The directory of a file, as it can be asked for. -/
def directoryOf (p : Path) : Path :=
  match p.parent? with
  | some d => if d.text.isEmpty then ⟨"."⟩ else d
  | none => ⟨"."⟩

def ofFile (w : Workspace) (p : Path) : Checked Config :=
  match w.readText p with
  | .error reason => Checked.fail (.unreadable p reason)
  | .ok s => do
    let config ← if isJsonPath p then ofJson s else ofToml s
    match w.canonical (directoryOf p) with
    | .error reason => Checked.fail (.unreadable (directoryOf p) reason)
    | .ok directory => return config.withSourceDirectory (some directory)

end Config

end SourceAudit
