/-
  SourceAudit/Threshold/Resolver.lean
  ===================================
  **The thresholds of a rule for one file.**

  A file is looked at from up to three sides: relative to the analysed directory,
  relative to the directory of the configuration, and by its bare name.  The first
  exception whose pattern selects one of these decides, and no later one is asked.
  What it sets lies over the thresholds of the rule or metric.  All paths are folded
  first; no file is touched.
-/
import SourceAudit.Config
import SourceAudit.Event

namespace SourceAudit

structure Resolver where
  base : Path
  configDirectory : Option Path
deriving DecidableEq, Repr

namespace Resolver

/-- The path of a file behind a directory, unless it lies elsewhere or is that
    directory.  A relative path is meant from the base. -/
def behind? (r : Resolver) (file directory : Path) : Option String :=
  (((r.base.join file).folded.relativeTo? directory.folded).map Path.slashText).filter
    fun s => !s.isEmpty

/-- The texts that patterns are tried on. -/
def projections (r : Resolver) (file : Path) : List String :=
  (r.behind? file r.base).toList ++
    (r.configDirectory.bind fun directory => r.behind? file directory).toList ++
    file.fileName?.toList

/-- The pattern selects the file from one of its sides. -/
def selects (r : Resolver) (file : Path) (pattern : FilePattern) : Bool :=
  (r.projections file).any fun s => pattern.selects s.toList

def exception? (r : Resolver) (file : Path) (config : RuleConfig) : Option ExceptionEntry :=
  config.exceptions.find? fun e => r.selects file e.pattern

def thresholds (r : Resolver) (file : Path) (config : RuleConfig) (metric : Option String) :
    Thresholds :=
  match r.exception? file config with
  | some e => (config.base metric).overlay (e.overrides metric)
  | none => config.base metric

/-- `thresholds`, with an event when an exception decides. -/
def resolve (r : Resolver) (file : Path) (config : RuleConfig) (metric : Option String) :
    Logged Thresholds := do
  match r.exception? file config with
  | some e => Logged.trace s!"exception `{e.pattern.text}` applies to {file.text}"
  | none => pure ()
  return r.thresholds file config metric

end Resolver

end SourceAudit
