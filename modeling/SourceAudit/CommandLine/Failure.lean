/-
  SourceAudit/CommandLine/Failure.lean
  ====================================
  **How a command ends.**

  A command ends with an exit code, what it printed, and the files as it leaves them.
  A failure prints what went wrong together with what caused it, and ends with 2.
-/
import SourceAudit.Config.Error
import SourceAudit.Discovery

namespace SourceAudit.CommandLine

/-- How a command ends. -/
structure Finish where
  exitCode : Nat
  output : String
  errors : String
  workspace : Workspace

/-- Why a command cannot do its work. -/
inductive Failure where
  | target (path : Path) (reason : FileError)
  | config (path : Path) (reason : ConfigError)
  | discovery (reason : DiscoveryError)
  | analysis (reason : DiscoveryError)
  | outputDirectory (path : Path) (reason : FileError)
  | write (path : Path) (reason : FileError)
  | configExists (path : Path)
deriving Repr

end CommandLine

def ConfigError.cause? : ConfigError → Option String
  | .unreadable _ reason => some reason.message
  | .invalidPattern _ reason => some reason.message
  | _ => none

def DiscoveryError.cause? : DiscoveryError → Option String
  | .invalidExclude _ reason => some reason.message
  | _ => none

namespace CommandLine.Failure

/-- What went wrong, each text followed by that of its cause. -/
def chain : Failure → List String
  | .target path reason => [s!"Cannot analyze {path.text}", reason.message]
  | .config path reason =>
    [s!"Failed to load config: {path.text}", reason.message] ++ reason.cause?.toList
  | .discovery reason => reason.message :: reason.cause?.toList
  | .analysis reason => "Analysis failed" :: reason.message :: reason.cause?.toList
  | .outputDirectory path reason =>
    [s!"Failed to create output directory {path.text}", reason.message]
  | .write path reason => [s!"Failed to write {path.text}", reason.message]
  | .configExists path =>
    [s!"Configuration file already exists at {path.text}. Use --force to overwrite."]

def help? : Failure → Option String
  | .config _ reason => reason.help?
  | _ => none

def text (f : Failure) : String :=
  "error: " ++ Text.joined ": " f.chain ++ "\n" ++ f.help?.elim "" fun help => s!"  help: {help}\n"

def finish (f : Failure) (output errors : String) (w : Workspace) : Finish :=
  ⟨2, output, errors ++ f.text, w⟩

end CommandLine.Failure

end SourceAudit
