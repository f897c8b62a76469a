/-
  SourceAudit/Main.lean
  =====================
  **The program.**

  It reads the part of the file tree that a command can ask for, executes the command on
  that value, prints what came out, and writes the one file that a command may leave.
-/
import SourceAudit.CommandLine

namespace SourceAudit.Program

open CommandLine

/-! ### Reading the file tree -/

def namesOf (path : String) : List String :=
  (Path.mk path).segments.filter fun s => !Path.isSilent s

/-- The file or directory at a path, with everything below it. -/
partial def readTree (path : String) : IO (Option FileTree) := do
  let place := System.mkFilePath [path]
  if ← place.isDir then
    let mut entries : List (String × FileTree) := []
    for entry in ← place.readDir do
      if let some tree ← readTree (path ++ "/" ++ entry.fileName) then
        entries := Entries.putSorted entry.fileName tree entries
    return some (.directory entries)
  else if ← place.pathExists then
    return some (.file (Content.ofBytes (← IO.FS.readBinFile place).toList))
  else return none

def addTree (root : FileTree) (path : String) : IO FileTree := do
  match ← (readTree path).toBaseIO with
  | .ok (some tree) =>
    return FileTree.put tree (namesOf (← IO.FS.realPath path).toString) root
  | _ => return root

def addFile (root : FileTree) (path : String) : IO FileTree := do
  if ← (System.mkFilePath [path]).isDir then return root else addTree root path

def addDirectories (root : FileTree) (path : Path) : IO FileTree := do
  let mut root := root
  for directory in path.ancestors do
    let place := System.mkFilePath [directory.text]
    if ← place.isDir then
      root := FileTree.makeDirectories (namesOf (← IO.FS.realPath place).toString) root
  return root

/-- The files in a directory that may matter for what lies below it. -/
def sideFiles : List String :=
  [".gitignore", ".ignore", ".git/info/exclude", Manifest.fileName] ++ ConfigSource.projectNames

def addSideFiles (root : FileTree) (directory : Path) : IO FileTree := do
  let mut root := root
  for around in directory.ancestors do
    for name in sideFiles do
      root ← addFile root (around.child name).text
  return root

def namedPaths : Command → List Path
  | .check s => s.path :: s.rules.toList ++ s.output.toList
  | .listRules _ _ => []
  | .init _ _ => []

def writtenPath? : Command → Option Path
  | .check s => s.output.map fun d => d.child "violations.csv"
  | .listRules _ _ => none
  | .init _ json => some (Path.child ⟨"."⟩ (template json).1)

def readWorkspace (command : Command) : IO Workspace := do
  let working : Path := ⟨(← IO.currentDir).toString⟩
  let home := (← IO.getEnv "HOME").map Path.mk
  let settings := (← IO.getEnv "CODE_ANALYZER_CONFIG_DIR").map Path.mk
  let mut root ← addSideFiles (FileTree.makeDirectories (namesOf working.text) .empty) working
  for path in namedPaths command ++ (writtenPath? command).toList do
    root ← addDirectories root (working.join path)
  if let .check s := command then
    root ← addTree root (working.join s.path).text
    root ← addSideFiles root (working.join s.path).folded
    for path in s.rules.toList do
      root ← addFile root (working.join path).text
  if let some path := writtenPath? command then
    root ← addTree root (working.join path).text
  if let some directory := home then
    root ← addFile root (directory.text ++ "/.config/git/ignore")
    root ← addFile root (directory.text ++ "/.code-analyzer/config.toml")
  if let some directory := settings then
    root ← addFile root (working.join (directory.child "config.toml")).text
  return ⟨root, namesOf working.text, home, settings⟩

/-! ### Leaving results -/

def writeChanged (before after : Workspace) (path : Path) : IO Unit := do
  match after.readText path, before.readText path with
  | .error _, _ => return ()
  | .ok text, old =>
    if old.toOption = some text then return ()
    if let some directory := path.parent? then
      if directory.text ≠ "" then IO.FS.createDirAll directory.text
    IO.FS.writeFile path.text text

/-- The events that are told, all but the lightest or only the heavier ones. -/
def tells (verbose : Bool) (e : Event) : Bool :=
  match e.level with
  | .trace => false
  | .debug => verbose
  | .info => true
  | .warn => true

def leave (finish : Finish) : IO UInt32 := do
  (← IO.getStderr).putStr finish.errors
  (← IO.getStdout).putStr finish.output
  return UInt32.ofNat finish.exitCode

def run (words : List String) : IO UInt32 := do
  match readArguments words with
  | .error reason => leave (interrupted default reason)
  | .ok invocation =>
    let before ← readWorkspace invocation.command
    let ink := if ← (← IO.getStdout).isTty then Ink.coloured else Ink.plain
    let logged := execute ink before invocation.command
    for e in logged.events.filter (tells invocation.verbose) do
      (← IO.getStderr).putStrLn e.line
    if let some path := writtenPath? invocation.command then
      writeChanged before logged.value.workspace path
    leave logged.value

end SourceAudit.Program

def main (words : List String) : IO UInt32 := SourceAudit.Program.run words
