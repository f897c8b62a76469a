/-
  SourceAudit/Config/Error.lean
  =============================
  **What can be wrong with a configuration.**

  Each error has a text, a code, and sometimes a hint.  Where a document cannot be
  read at all, the text does not go into details.
-/
import SourceAudit.FilePattern
import SourceAudit.FileTree
import SourceAudit.Shape

namespace SourceAudit

/-- Why there is no configuration. -/
inductive ConfigError where
  | unreadable (path : Path) (reason : FileError)              -- the file cannot be read
  | malformed                                                  -- the document cannot be read
  | misshapen (rule : String) (reason : ShapeError)            -- a top-level block does not fit
  | exceptionWithoutFile (rule : String) (index : Nat)
  | invalidPattern (place : String) (reason : PatternError)
  | unknownKey (key : String)
  | duplicateRule (rule : String)
  | unknownLevel (place value : String)
deriving Repr

namespace ConfigError

def message : ConfigError → String
  | .unreadable path reason => s!"Failed to read config file {path.text}: {reason.message}"
  | .malformed => "Failed to parse config: <syntax>"
  | .misshapen rule reason => s!"Failed to parse config: {rule}: {reason.message}"
  | .exceptionWithoutFile rule index =>
    s!"rules.{rule}.exceptions[{index}]: missing required `file` pattern"
  | .invalidPattern place reason => s!"{place}: {reason.message}"
  | .unknownKey key => s!"unknown top-level key `{key}`"
  | .duplicateRule rule => s!"rule `{rule}` is configured twice"
  | .unknownLevel place value =>
    s!"{place}: unknown log level `{value}`, expected: error, warning, all"

def code : ConfigError → String
  | .unreadable _ _ => "config::io"
  | .malformed => "config::parse"
  | .misshapen _ _ => "config::parse"
  | .exceptionWithoutFile _ _ => "config::exception_file"
  | .invalidPattern _ _ => "config::pattern"
  | .unknownKey _ => "config::unknown_key"
  | .duplicateRule _ => "config::duplicate_rule"
  | .unknownLevel _ _ => "config::log_level"

def help? : ConfigError → Option String
  | .exceptionWithoutFile _ _ =>
    some "every exception needs a `file` path or glob, e.g. file = \"lib/generated/*.dart\""
  | .unknownKey _ =>
    some "rule blocks are tables/objects, either at the top level or under `rules`"
  | .duplicateRule _ => some "keep either the top-level block or the one under `rules`"
  | _ => none

end ConfigError

end SourceAudit
