/-
  SourceAudit/Discovery.lean
  ==========================
  **Finding the files of a language.**

  A path may name a file, which must belong to the language, or a directory, whose
  files are then collected: those of the language that no ignore file and no exclude
  glob takes out, hidden ones included, in the order of their path components.
-/
import SourceAudit.IgnoreFiles
import SourceAudit.Language
import SourceAudit.Glob
import SourceAudit.Event

namespace SourceAudit

/-- Why files cannot be found. -/
inductive DiscoveryError where
  | notFound (path : Path)
  | unsupportedFile (path : Path) (language : Language)
  | unknownLanguage (name : String)
  | invalidExclude (pattern : String) (reason : Glob.SyntaxError)
deriving DecidableEq, Repr

def DiscoveryError.message : DiscoveryError → String
  | .notFound path => s!"path not found: {path.text}"
  | .unsupportedFile path language => s!"{path.text} is not a {language.name} source file"
  | .unknownLanguage name =>
    s!"unknown language `{name}`, expected one of: " ++
      Text.joined ", " (Language.all.map Language.name)
  | .invalidExclude pattern reason => s!"invalid exclude pattern `{pattern}`: {reason.message}"

def Language.read (name : String) : Except DiscoveryError Language :=
  (Language.ofName? name).elim (.error (.unknownLanguage name)) .ok

structure Discovery where
  language : Language
  /-- Globs for paths, relative to the searched directory, that are left out. -/
  exclude : List Glob
  respectGitignore : Bool
deriving DecidableEq, Repr

namespace Discovery

/-- Reads an exclude pattern, in which backslashes count as slashes. -/
def readExclude (pattern : String) : Except DiscoveryError Glob :=
  let text := String.ofList (Text.forwardSlashes pattern.toList)
  match Glob.read text with
  | .ok glob => .ok glob
  | .error reason => .error (.invalidExclude text reason)

def read (language : Language) (exclude : List String) (respectGitignore : Bool) :
    Except DiscoveryError Discovery := do
  return ⟨language, ← exclude.mapM readExclude, respectGitignore⟩

/-! ### Walking -/

mutual

/-- The files at and below a path that no ignore file takes out. -/
def filesAt (git : Bool) (stack : IgnoreStack) (path : Path) : FileTree → List Path
  | .file _ => [path]
  | .directory entries =>
    filesIn git (stack.push (IgnoreLayer.ofDirectory git path (.directory entries))) path entries

def filesIn (git : Bool) (stack : IgnoreStack) (path : Path) :
    List (String × FileTree) → List Path
  | [] => []
  | (name, tree) :: rest =>
    let found :=
      if stack.ignores (path.child name) tree.isDirectory then []
      else filesAt git stack (path.child name) tree
    found ++ filesIn git stack path rest

end

/-- The files below a directory that the walk gives, in order. -/
def walk (w : Workspace) (git : Bool) (directory : Path) : List Path :=
  match w.find? directory, w.canonical directory with
  | some tree, .ok canonical =>
    (filesAt git (w.ignoreStack git directory canonical) directory tree).mergeSort Path.le
  | _, _ => []

/-! ### Searching -/

def excludes (d : Discovery) (directory file : Path) : Bool :=
  let relative := (file.displayedFrom directory).toList
  d.exclude.any fun g => g.matchesText .separate relative

/-- The files of the language that the walk gives, with those left out. -/
def candidates (d : Discovery) (w : Workspace) (directory : Path) : List Path :=
  (walk w d.respectGitignore directory).filter d.language.owns

def tellExcluded : List Path → Logged Unit
  | [] => return ()
  | p :: rest => do
    Logged.debug s!"Excluding: {p.text}"
    tellExcluded rest

def inDirectory (d : Discovery) (w : Workspace) (directory : Path) : Logged (List Path) := do
  let found := d.candidates w directory
  tellExcluded (found.filter (d.excludes directory))
  let files := found.filter fun f => !d.excludes directory f
  Logged.debug s!"Discovered {files.length} {d.language.name} files"
  return files

/-- The files a path stands for. -/
def discover (d : Discovery) (w : Workspace) (path : Path) :
    Logged (Except DiscoveryError (List Path)) :=
  match w.find? path with
  | none => return .error (.notFound path)
  | some (.file _) =>
    return if d.language.owns path then .ok [path] else .error (.unsupportedFile path d.language)
  | some (.directory _) => do return .ok (← d.inDirectory w path)

end Discovery

end SourceAudit
