/-
  SourceAudit/IgnoreFiles.lean
  ============================
  **Which paths of a walk the ignore files take out.**

  Every directory may hold lines of three kinds: those of its `.ignore` file, of its
  `.gitignore` file, and of `.git/info/exclude` below it.  They count for everything
  inside the directory.  To decide about a path, each kind is asked by itself, from
  the innermost directory outwards and on through the directories around the root of
  the walk, until one has something to say; `.ignore` goes before `.gitignore`, that
  before the exclude files, and those before the settings of the user.
-/
import SourceAudit.IgnorePattern
import SourceAudit.FileTree
import SourceAudit.Text.Lines

namespace SourceAudit

def utf8 (s : String) : List UInt8 := s.toUTF8.toList

/-- The lines of a file up to the first one that is not text. -/
def Content.textLines : Content → List (List Char)
  | .text s => Text.lines s.toList
  | .bytes raw => decoded (byteLines raw)
where
  /-- The bytes between line feeds. -/
  byteLines : List UInt8 → List (List UInt8)
    | [] => [[]]
    | b :: rest =>
      match byteLines rest with
      | [] => [[b]]
      | line :: more => if b = 0x0A then [] :: line :: more else (b :: line) :: more
  /-- The lines of bytes that are text, up to the first other one. -/
  decoded : List (List UInt8) → List (List Char)
    | [] => []
    | line :: rest =>
      match String.fromUTF8? ⟨line.toArray⟩ with
      | some s => Text.dropReturn s.toList :: decoded rest
      | none => []

def IgnorePattern.ofFile : FileTree → List IgnorePattern
  | .directory _ => []
  | .file content =>
    match content.textLines with
    | [] => []
    | first :: rest =>
      (first.dropWhile (fun c => c.toNat = 0xFEFF) :: rest).filterMap IgnorePattern.ofLine?

def IgnorePattern.ofTree (names : List String) (directory : FileTree) : List IgnorePattern :=
  (directory.at? names).elim [] IgnorePattern.ofFile

/-- Whether a path is out or explicitly in. -/
inductive Verdict where
  | ignored
  | kept
deriving DecidableEq, Repr

/-- The ignore lines of one directory. -/
structure IgnoreLayer where
  /-- The directory, as its entries spell it. -/
  directory : List UInt8
  dotIgnore : List IgnorePattern
  gitIgnore : List IgnorePattern
  gitExclude : List IgnorePattern
deriving Repr

namespace IgnoreLayer

/-- `.` and `/` as bytes. -/
def dot : UInt8 := 0x2E

/-- The path without a leading `./`. -/
def withoutDot : List UInt8 → List UInt8
  | a :: b :: rest => if a = dot && b = IgnorePattern.slash then rest else a :: b :: rest
  | s => s

/-- The path without a beginning that stands in it byte for byte. -/
def afterBytes? : (start path : List UInt8) → Option (List UInt8)
  | [], path => some path
  | _ :: _, [] => none
  | s :: start, b :: path => if s = b then afterBytes? start path else none

def withoutSlash : List UInt8 → List UInt8
  | b :: rest => if b = IgnorePattern.slash then rest else b :: rest
  | [] => []

/-- The path as seen from a directory.  A bare name is not cut. -/
def seenFrom (directory path : List UInt8) : List UInt8 :=
  let path := withoutDot path
  if directory = [dot] || !path.contains IgnorePattern.slash then path
  else (afterBytes? directory path).elim path withoutSlash

/-- The lines of a directory of the tree; `git` says whether those of git count. -/
def ofDirectory (git : Bool) (path : Path) (directory : FileTree) : IgnoreLayer where
  directory := withoutDot (utf8 path.text)
  dotIgnore := IgnorePattern.ofTree [".ignore"] directory
  gitIgnore := if git then IgnorePattern.ofTree [".gitignore"] directory else []
  gitExclude := if git then IgnorePattern.ofTree [".git", "info", "exclude"] directory else []

def verdict? (layer : IgnoreLayer) (patterns : List IgnorePattern) (path : List UInt8)
    (isDirectory : Bool) : Option Verdict :=
  (IgnorePattern.decide? patterns (seenFrom layer.directory path) isDirectory).map fun out =>
    if out then .ignored else .kept

end IgnoreLayer

/-- Everything that counts for the entries of one directory of a walk. -/
structure IgnoreStack where
  /-- The directories of the walk, innermost first. -/
  inner : List IgnoreLayer
  /-- The directories around the root of the walk, innermost first. -/
  outer : List IgnoreLayer
  /-- The lines of the user, seen from the working directory. -/
  user : IgnoreLayer
  /-- The root of the walk, as it is written. -/
  root : Path
  /-- The root of the walk without `.` and `..`. -/
  canonicalRoot : Path
deriving Repr

namespace IgnoreStack

/-- The path of an entry for the directories around the root. -/
def absolutePath (s : IgnoreStack) (path : Path) : List UInt8 :=
  let cut := IgnoreLayer.withoutDot (utf8 path.text)
  let start := IgnoreLayer.withoutDot (utf8 s.root.text)
  let rest :=
    if s.root.text = "." then cut
    else (IgnoreLayer.afterBytes? start cut).elim cut IgnoreLayer.withoutSlash
  if rest.head? = some IgnorePattern.slash then rest
  else if s.canonicalRoot.text = "/" then IgnorePattern.slash :: rest
  else utf8 s.canonicalRoot.text ++ IgnorePattern.slash :: rest

def verdict? (s : IgnoreStack) (kind : IgnoreLayer → List IgnorePattern) (path : Path)
    (isDirectory : Bool) : Option Verdict :=
  (s.inner.findSome? fun l => l.verdict? (kind l) (utf8 path.text) isDirectory).or
    (s.outer.findSome? fun l => l.verdict? (kind l) (s.absolutePath path) isDirectory)

def ignores (s : IgnoreStack) (path : Path) (isDirectory : Bool) : Bool :=
  ((s.verdict? IgnoreLayer.dotIgnore path isDirectory).or <|
    (s.verdict? IgnoreLayer.gitIgnore path isDirectory).or <|
    (s.verdict? IgnoreLayer.gitExclude path isDirectory).or <|
    s.user.verdict? s.user.gitIgnore (utf8 path.text) isDirectory) = some .ignored

def push (s : IgnoreStack) (layer : IgnoreLayer) : IgnoreStack :=
  { s with inner := layer :: s.inner }

end IgnoreStack

/-- The directories around a path without `.` and `..`, innermost first. -/
def Path.around (p : Path) : List Path := p.ancestors.tail

/-- The lines of the user: the file `.config/git/ignore` in the home directory.  It stands for
    the file that git would take; neither `core.excludesFile` nor `XDG_CONFIG_HOME`, which may
    name another one, is looked at. -/
def Workspace.userLayer (w : Workspace) (git : Bool) : IgnoreLayer where
  directory := utf8 w.workingDirectory.text
  dotIgnore := []
  gitIgnore :=
    if git then
      (w.home.bind fun h => w.find? (h.child ".config/git/ignore")).elim [] IgnorePattern.ofFile
    else []
  gitExclude := []

def Workspace.ignoreStack (w : Workspace) (git : Bool) (root canonicalRoot : Path) :
    IgnoreStack where
  inner := []
  outer := canonicalRoot.around.map fun d =>
    IgnoreLayer.ofDirectory git d ((w.find? d).getD .empty)
  user := w.userLayer git
  root := root
  canonicalRoot := canonicalRoot

end SourceAudit
