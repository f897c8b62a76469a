/-
  SourceAudit/Rule/UnusedFiles.lean
  =================================
  **Dart files no entry point reaches.**

  A file reaches what its statements name, as far as that exists.  Starting from the
  entry points, and with tests also from what the tests name, the files that are not
  reached in any number of steps are reported.  Steps lead on only from the files
  that are looked at.
-/
import SourceAudit.DartPackage
import SourceAudit.Reachable

namespace SourceAudit.UnusedFiles

def name : String := "dart_unused_files"

/-! ### Steps between files -/

structure Package where
  root : Path
  name : Option String
deriving Repr

namespace Package

/-- The path that a URI in a file stands for; none for other packages. -/
def target? (g : Package) (file : Path) (uri : String) : Option Path :=
  match g.name.bind fun name => DartPackage.afterStart? (DartPackage.ownStart name) uri with
  | some rest => some ((g.root.child "lib").join ⟨rest⟩)
  | none =>
    if "dart:".toList.isPrefixOf uri.toList || "package:".toList.isPrefixOf uri.toList then none
    else file.parent?.map fun parent => parent.join ⟨uri⟩

/-- The existing file that a URI in a file leads to. -/
def resolve? (g : Package) (w : Workspace) (file : Path) (uri : String) : Option Path :=
  ((g.target? file uri).map Path.folded).filter w.isFile

def targets (g : Package) (w : Workspace) (file : Path) : Logged (List Path) := do
  return (← DartPackage.directives w file).filterMap fun d => g.resolve? w file d.uri

def edges (g : Package) (w : Workspace) : List Path → Logged (List (Path × List Path))
  | [] => return []
  | file :: rest => do
    let targets ← g.targets w file
    return (file, targets) :: (← edges g w rest)

def allTargets (g : Package) (w : Workspace) (files : List Path) : Logged (List Path) := do
  return (← g.edges w files).flatMap Prod.snd

end Package

/-! ### The rule -/

def entryPoints (w : Workspace) (root : Path) (config : RuleConfig) : List Path :=
  let paths := (config.texts? "entry_points").getD ["lib/main.dart"]
  (paths.map fun s => (root.join ⟨s⟩).folded).filter w.isFile

/-- What the tests of a package name, when tests count. -/
def testTargets (w : Workspace) (g : Package) (config : RuleConfig) (excludes : List Glob) :
    RuleWork (List Path) := do
  if config.bool "include_test_imports" false && w.isDirectory (g.root.child "test") then
    let tests ← DartPackage.files w (g.root.child "test") excludes
    ExceptT.lift (g.allTargets w tests)
  else return []

def violation (file : String) : Violation :=
  ⟨file, name, .warning, s!"File '{file}' is never imported by any other file in the project", none⟩

def unreached (files starts : List Path) (edges : List (Path × List Path)) : List Path :=
  let reached := Reachable.fromStarts starts edges
  files.filter fun f => !reached.contains f

def checkDirectory (p : ProjectContext) (config : RuleConfig) (root directory : Path) :
    RuleWork (List Violation) := do
  let w := p.workspace
  let excludes ← RuleWork.ofResult (PatternOption.excludes config)
  let g : Package := ⟨root, (← DartPackage.manifest w root).name⟩
  let files ← DartPackage.files w directory excludes
  if files.isEmpty then
    RuleWork.debug s!"No Dart files under {directory.text}"
    return []
  else
    let edges ← ExceptT.lift (g.edges w files)
    match entryPoints w root config with
    | [] =>
      RuleWork.warn s!"No entry points found, skipping {name}"
      return []
    | entries =>
      let starts := entries ++ (← testTargets w g config excludes)
      let found := (unreached files starts edges).map fun f => violation (p.relativePath f)
      RuleWork.debug s!"{name} found {found.length} unused file(s)"
      return found

def check (p : ProjectContext) (config : RuleConfig) : RuleWork (List Violation) := do
  match DartPackage.root? p.workspace p.root with
  | none =>
    RuleWork.warn s!"pubspec.yaml not found, skipping {name}"
    return []
  | some root =>
    let root := root.folded
    let directory := (root.join ⟨(config.text? "analyze_path").getD "lib"⟩).folded
    if !p.workspace.isDirectory directory then
      RuleWork.warn s!"Analyze path {directory.text} does not exist"
      return []
    else checkDirectory p config root directory

def rule {σ : Type} : Rule σ :=
  .projectWide name "Finds Dart files never imported from an entry point" [.dart] check

end SourceAudit.UnusedFiles
