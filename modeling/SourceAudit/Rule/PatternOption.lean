/-
  SourceAudit/Rule/PatternOption.lean
  ===================================
  **Globs in the options of a rule.**

  A rule for the whole run may be given globs for files.  In them a slash is a
  character like any other, so that `*` crosses directories.
-/
import SourceAudit.Rule
import SourceAudit.Glob

namespace SourceAudit.PatternOption

def read (option pattern : String) : Except RuleError Glob :=
  match Glob.read pattern with
  | .ok glob => .ok glob
  | .error e => .error (.invalidOption option s!"invalid pattern `{pattern}`: {e.message}")

/-- Reads the globs of an option; the first that cannot be read is the error. -/
def readAll (option : String) (patterns : List String) : Except RuleError (List Glob) :=
  patterns.mapM (read option)

/-- Generated files, which are left out unless a rule is told otherwise. -/
def generated : List String := ["*.g.dart", "*.freezed.dart"]

def excludes (config : RuleConfig) : Except RuleError (List Glob) :=
  readAll "exclude_patterns" ((config.texts? "exclude_patterns").getD generated)

def accepts (glob : Glob) (s : String) : Bool := glob.matchesText .ordinary s.toList

/-- A file is left out by its name or by its path below the directory of a rule. -/
def leavesOut (globs : List Glob) (file : Path) (relative : String) : Bool :=
  globs.any fun g => accepts g (file.fileName?.getD "") || accepts g relative

def severity (option : String) (default : Severity) :
    Option String → Except RuleError Severity
  | none => .ok default
  | some s =>
    match Severity.ofName? s with
    | some severity => .ok severity
    | none => .error (.invalidOption option s!"unknown severity `{s}`")

end SourceAudit.PatternOption
