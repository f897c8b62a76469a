/-
  SourceAudit/Rule/ImportBoundary.lean
  ====================================
  **Boundaries that imports must not cross.**

  A boundary forbids the files of one glob to import what other globs select.  A
  relative import, and one by the name of the own package, is first resolved to a
  path below the analysed directory; other imports are looked at as they are written.
  An import that crosses a boundary is reported once for that boundary.
-/
import SourceAudit.DartPackage

namespace SourceAudit.ImportBoundary

def name : String := "import_rules"

/-! ### Boundaries -/

/-- A boundary as written in an option. -/
structure Draft where
  source : Option String
  targets : List String
  severity : Option String
  message : Option String
deriving Repr

namespace Draft

def empty : Draft := ⟨none, [], none, none⟩

def fields : List String := ["from", "cannot_import", "severity", "message"]

def step (b : Draft) : String × Datum → Except ShapeError Draft
  | ("from", d) => do return { b with source := some (← Shape.text d) }
  | ("cannot_import", d) => do return { b with targets := ← Shape.texts d }
  | ("severity", d) => do return { b with severity := ← Shape.optional Shape.text d }
  | ("message", d) => do return { b with message := ← Shape.optional Shape.text d }
  | _ => .ok b

/-- What is said of a draft without its first field. -/
def missing : Datum → ShapeError
  | .list items => .tooShort items.length "struct ForbiddenImportDto with 4 elements"
  | _ => .missing "from"

def ofDatum (d : Datum) : Except ShapeError (String × Draft) := do
  let b ← Shape.record "struct ForbiddenImportDto" .refused fields step empty d
  match b.source with
  | some source => return (source, b)
  | none => .error (missing d)

end Draft

structure Boundary where
  source : Glob
  targets : List Glob
  severity : Severity
  message : String
deriving Repr

def boundary (index : Nat) (source : String) (b : Draft) : Except RuleError Boundary := do
  let option := s!"forbidden_imports[{index}]"
  let severity ← PatternOption.severity option .error b.severity
  let source ← PatternOption.read option source
  let targets ← PatternOption.readAll option b.targets
  return ⟨source, targets, severity, b.message.getD "Architecture violation"⟩

/-- The boundaries of drafts, from the given position on. -/
def boundariesFrom : (position : Nat) → List (String × Draft) → Except RuleError (List Boundary)
  | _, [] => .ok []
  | i, (source, b) :: rest => do
    let first ← boundary i source b
    return first :: (← boundariesFrom (i + 1) rest)

def boundaries (config : RuleConfig) : Except RuleError (List Boundary) :=
  match config.option? "forbidden_imports" with
  | none => .ok []
  | some d =>
    match Shape.list Draft.ofDatum d with
    | .error e => .error (.invalidOption "forbidden_imports" e.message)
    | .ok drafts => boundariesFrom 0 drafts

/-! ### Imports -/

def isRelative (uri : String) : Bool :=
  let s := uri.toList
  "./".toList.isPrefixOf s || "../".toList.isPrefixOf s ||
    (!s.contains ':' && s.head? ≠ some '/' && ".dart".toList.isSuffixOf s)

/-- The path below the analysed directory that a URI in a file leads to. -/
def resolve? (directory : Path) (package : Option String) (file : Path) (uri : String) :
    Option String :=
  match package.bind fun name => DartPackage.afterStart? (DartPackage.ownStart name) uri with
  | some rest => some rest
  | none =>
    if isRelative uri then do
      let parent ← file.parent?
      ((parent.join ⟨uri⟩).folded.relativeTo? directory).map Path.slashText
    else none

abbrev ResolvedImport := Directive × Option String

def Boundary.isCrossedBy (b : Boundary) (i : ResolvedImport) : Bool :=
  b.targets.any fun target =>
    i.2.any (PatternOption.accepts target) ||
      (!isRelative i.1.uri && PatternOption.accepts target i.1.uri)

def Boundary.violation (b : Boundary) (file : String) (i : Directive) : Violation :=
  ⟨file, name, b.severity,
    s!"Architecture violation: {file} imports '{i.uri}' - {b.message} (line {i.line})", none⟩

/-- The violations of a file, by boundary and then by import. -/
def violationsOf (file : String) (boundaries : List Boundary) (imports : List ResolvedImport) :
    List Violation :=
  boundaries.flatMap fun b =>
    (imports.filter b.isCrossedBy).map fun i => b.violation file i.1

/-! ### The rule -/

/-- What the files of a run are held against. -/
structure Setting where
  directory : Path
  boundaries : List Boundary
  excludes : List Glob
  package : Option String
deriving Repr

/-- The boundaries for a file: none when it lies elsewhere or is left out. -/
def Setting.boundariesFor (s : Setting) (file : Path) : List Boundary :=
  match (file.relativeTo? s.directory).map Path.slashText with
  | none => []
  | some relative =>
    if PatternOption.leavesOut s.excludes file relative then []
    else s.boundaries.filter fun b => PatternOption.accepts b.source relative

def Setting.importsOf (s : Setting) (file : Path) (content : String) : List ResolvedImport :=
  (Directive.importsOf file content.toList).map fun i =>
    (i, resolve? s.directory s.package file i.uri)

def checkFile (p : ProjectContext) (s : Setting) (file : Path) : Logged (List Violation) :=
  match s.boundariesFor file with
  | [] => return []
  | boundaries =>
    match p.workspace.readText file with
    | .error reason => do
      Logged.warn s!"Skipping unreadable file {file.text}: {reason.message}"
      return []
    | .ok content => return violationsOf (p.relativePath file) boundaries (s.importsOf file content)

def checkFiles (p : ProjectContext) (s : Setting) : List Path → Logged (List Violation)
  | [] => return []
  | file :: rest => do
    let found ← checkFile p s file.folded
    return found ++ (← checkFiles p s rest)

def packageName (p : ProjectContext) (config : RuleConfig) (directory : Path) :
    RuleWork (Option String) :=
  match config.text? "package_name", DartPackage.root? p.workspace directory with
  | some name, _ => return some name
  | none, none => return none
  | none, some root => do return (← DartPackage.manifest p.workspace root).name

def check (p : ProjectContext) (config : RuleConfig) : RuleWork (List Violation) := do
  match ← RuleWork.ofResult (boundaries config) with
  | [] =>
    RuleWork.debug "No forbidden import rules configured"
    return []
  | boundaries =>
    let directory := (p.root.join ⟨(config.text? "analyze_path").getD "."⟩).folded
    if !p.workspace.isDirectory directory then
      RuleWork.warn s!"Analyze path {directory.text} does not exist"
      return []
    else
      let excludes ← RuleWork.ofResult (PatternOption.excludes config)
      let package ← packageName p config directory
      let found ← ExceptT.lift (checkFiles p ⟨directory, boundaries, excludes, package⟩ p.files)
      RuleWork.debug s!"{name} found {found.length} violation(s)"
      return found

def rule {σ : Type} : Rule σ :=
  .projectWide name "Forbids imports that cross configured architecture boundaries"
    [.dart, .javascript, .svelte] check

end SourceAudit.ImportBoundary
