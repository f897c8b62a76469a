/-
  SourceAudit/FileTree.lean
  =========================
  **A file tree as a value.**

  Everything a run reads is a tree of directories and files below one root, and
  everything it leaves behind is another such tree.  A path is resolved against a
  working directory, one written segment after the other; every segment but the
  first must be reached from a directory.

  Names are Unicode texts.  A name with bytes that are not UTF-8 has no place here;
  such names would be shown with replacement characters, so that two files could be
  shown alike.  There are no symbolic links and no permissions, and reading fails for
  the reasons of `FileError` only, not with any other error of the system.
-/
import SourceAudit.Path
import SourceAudit.Entries

namespace SourceAudit

/-- The content of a file: a text, or bytes that are not UTF-8. -/
inductive Content where
  | text (value : String)
  | bytes (raw : List UInt8)
deriving DecidableEq, Repr, Inhabited

def Content.ofBytes (raw : List UInt8) : Content :=
  match String.fromUTF8? ⟨raw.toArray⟩ with
  | some s => .text s
  | none => .bytes raw

/-- A file, or a directory with its entries. -/
inductive FileTree where
  | file (content : Content)
  | directory (entries : List (String × FileTree))
deriving Repr, Inhabited

inductive FileError where
  | notFound
  | exists
  | notADirectory
  | isADirectory
  | notText
  | noSuchEntity
deriving DecidableEq, Repr

def FileError.message : FileError → String
  | .notFound => "No such file or directory (os error 2)"
  | .exists => "File exists (os error 17)"
  | .notADirectory => "Not a directory (os error 20)"
  | .isADirectory => "Is a directory (os error 21)"
  | .notText => "stream did not contain valid UTF-8"
  | .noSuchEntity => "entity not found"

namespace FileTree

def empty : FileTree := .directory []

/-- The entries of a directory. -/
def entries : FileTree → List (String × FileTree)
  | .file _ => []
  | .directory es => es

def isDirectory : FileTree → Bool
  | .file _ => false
  | .directory _ => true

def entry? (tree : FileTree) (name : String) : Option FileTree :=
  tree.entries.lookup name

/-- What lies at a list of names below the root. -/
def at? : FileTree → List String → Option FileTree
  | tree, [] => some tree
  | tree, name :: names => (tree.entry? name).bind (at? · names)

/-- Puts a tree at a list of names, making the directories on the way. -/
def put (value : FileTree) : List String → FileTree → FileTree
  | [], _ => value
  | name :: names, tree =>
    .directory (Entries.put name (put value names ((tree.entry? name).getD empty)) tree.entries)

/-- Makes directories at a list of names; what is there already stays. -/
def makeDirectories : List String → FileTree → FileTree
  | [], tree => tree
  | name :: names, tree =>
    let inner := makeDirectories names ((tree.entry? name).getD empty)
    .directory (Entries.put name inner tree.entries)

def remove : List String → FileTree → FileTree
  | [], tree => tree
  | [name], .directory es => .directory (es.filter (·.1 ≠ name))
  | name :: names, .directory es =>
    match es.lookup name with
    | none => .directory es
    | some t => .directory (Entries.put name (remove names t) es)
  | _, .file c => .file c

/-- One segment of a path, from the directory at `names`. -/
def resolveStep (root : FileTree) (names : List String) (segment : String) :
    Except FileError (List String) :=
  match root.at? names with
  | some (.directory es) =>
    if Path.isSilent segment then .ok names
    else if segment = ".." then .ok names.dropLast
    else if (es.lookup segment).isSome then .ok (names ++ [segment])
    else .error .notFound
  | some (.file _) => .error .notADirectory
  | none => .error .notFound

/-- The names below the root that a path leads to, from a working directory. -/
def resolve (root : FileTree) (workingDirectory : List String) (p : Path) :
    Except FileError (List String) :=
  if p.text.isEmpty then .error .notFound
  else p.segments.foldlM (resolveStep root) (if p.isAbsolute then [] else workingDirectory)

end FileTree

def Path.ofNames (names : List String) : Path :=
  Path.ofComponents (.root :: names.map .name)

/-- What a run sees: the tree, the working directory and where settings may lie. -/
structure Workspace where
  tree : FileTree
  /-- The working directory, as names below the root. -/
  workingNames : List String
  home : Option Path
  /-- The directory for settings, when one is named. -/
  settingsDirectory : Option Path
deriving Inhabited

namespace Workspace

def workingDirectory (w : Workspace) : Path := Path.ofNames w.workingNames

def resolve (w : Workspace) (p : Path) : Except FileError (List String) :=
  w.tree.resolve w.workingNames p

def find? (w : Workspace) (p : Path) : Option FileTree :=
  match w.resolve p with
  | .ok names => w.tree.at? names
  | .error _ => none

def isFile (w : Workspace) (p : Path) : Bool :=
  match w.find? p with
  | some (.file _) => true
  | _ => false

def isDirectory (w : Workspace) (p : Path) : Bool :=
  match w.find? p with
  | some (.directory _) => true
  | _ => false

/-- The path without `.`, `..` and doubled slashes, from the root. -/
def canonical (w : Workspace) (p : Path) : Except FileError Path :=
  (w.resolve p).map Path.ofNames

def readText (w : Workspace) (p : Path) : Except FileError String := do
  let names ← w.resolve p
  match w.tree.at? names with
  | some (.file (.text s)) => .ok s
  | some (.file (.bytes _)) => .error .notText
  | some (.directory _) => .error .isADirectory
  | none => .error .notFound

/-- One segment of a directory to make, from the directory at `names`. -/
def makeStep (state : FileTree × List String) (segment : String) :
    Except FileError (FileTree × List String) :=
  let (tree, names) := state
  match tree.at? names with
  | some (.directory es) =>
    if Path.isSilent segment then .ok (tree, names)
    else if segment = ".." then .ok (tree, names.dropLast)
    else if (es.lookup segment).isSome then .ok (tree, names ++ [segment])
    else .ok (FileTree.put .empty (names ++ [segment]) tree, names ++ [segment])
  | some (.file _) => .error .notADirectory
  | none => .error .notFound

/-- Makes a directory and those around it.  A path that ends in `.` only names a directory
    that exists. -/
def makeDirectory (w : Workspace) (p : Path) : Except FileError Workspace := do
  if p.text.isEmpty then return w
  if p.endsInDot && w.resolve p matches .error .notFound then .error .notFound
  let start := if p.isAbsolute then [] else w.workingNames
  let (tree, names) ← p.trimmed.segments.foldlM makeStep (w.tree, start)
  match tree.at? names with
  | some (.directory _) => return { w with tree := tree }
  | _ => .error .exists

def writeText (w : Workspace) (p : Path) (text : String) : Except FileError Workspace := do
  match w.resolve p with
  | .ok names =>
    match w.tree.at? names with
    | some (.directory _) => .error .isADirectory
    | _ => return { w with tree := FileTree.put (.file (.text text)) names w.tree }
  | .error e =>
    match e, p.parent?, p.fileName? with
    | .notFound, some directory, some name =>
      let names ← if directory.text.isEmpty then .ok w.workingNames else w.resolve directory
      return { w with tree := FileTree.put (.file (.text text)) (names ++ [name]) w.tree }
    | e, _, _ => .error e

end Workspace

end SourceAudit
