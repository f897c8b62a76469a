/-
  SourceAudit/Config/Source.lean
  ==============================
  **Where the configuration of a run comes from.**

  A file that is named is taken as it is.  Otherwise the known names are looked for
  beside what is analysed, then in the working directory, and at last there may be a
  file for all projects of a user.  The first file found counts.
-/
import SourceAudit.Config.Document

namespace SourceAudit

/-- The file a configuration is read from, and why that one. -/
inductive ConfigSource where
  | explicit (path : Path)     -- it was named
  | project (path : Path)      -- it lies beside the code or in the working directory
  | global (path : Path)       -- it is for all projects
  | default                    -- there is none
deriving DecidableEq, Repr

namespace ConfigSource

def path? : ConfigSource → Option Path
  | .explicit p => some p
  | .project p => some p
  | .global p => some p
  | .default => none

def isGlobal : ConfigSource → Bool
  | .global _ => true
  | _ => false

def display : ConfigSource → String
  | .explicit p => p.text
  | .project p => s!"{p.text} (project)"
  | .global p => s!"{p.text} (global)"
  | .default => "built-in defaults"

/-- The names of configuration files of a project, in the order of preference. -/
def projectNames : List String := ["code-analyzer.toml", ".code-analyzer.toml", "rules.json"]

def projectDirectory (w : Workspace) (target : Path) : Path :=
  if w.isFile target then target.parent?.getD ⟨"."⟩ else target

/-- The directories of a project, the working directory last and not twice. -/
def searchDirectories (w : Workspace) (target : Path) : List Path :=
  let first := projectDirectory w target
  if first.components = w.workingDirectory.components then [first]
  else [first, w.workingDirectory]

def projectCandidates (w : Workspace) (target : Path) : List Path :=
  (searchDirectories w target).flatMap fun d => projectNames.map d.child

/-- The file for all projects, whether it exists or not. -/
def globalCandidate? (w : Workspace) : Option Path :=
  (w.settingsDirectory.or (w.home.map fun h => h.child ".code-analyzer")).map
    fun d => d.child "config.toml"

/-- The source for what is analysed, when a file may be named. -/
def find (w : Workspace) (target : Path) (named : Option Path) : Logged ConfigSource :=
  match named, (projectCandidates w target).find? w.isFile,
    (globalCandidate? w).filter w.isFile with
  | some p, _, _ => return .explicit p
  | none, some p, _ => do
    Logged.debug s!"Found project config: {p.text}"
    return .project p
  | none, none, some p => do
    Logged.debug s!"Found global config: {p.text}"
    return .global p
  | none, none, none => return .default

end ConfigSource

end SourceAudit
