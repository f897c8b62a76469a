/-
  SourceAudit/Rule/UnusedPackages.lean
  ====================================
  **Packages a manifest lists and no file names.**

  A package counts as used when a statement of a Dart file in the scanned
  directories leads to it.  A package for development may also be used where the
  other packages are looked for.
-/
import SourceAudit.DartPackage

namespace SourceAudit.UnusedPackages

def name : String := "dart_unused_dependencies"

/-- Packages of the SDK and tools, which are rarely named in a file. -/
def usuallyIgnored : List String :=
  ["flutter", "flutter_localizations", "flutter_test", "flutter_lints", "dart_code_linter",
    "build_runner", "json_serializable", "freezed", "freezed_annotation"]

/-! ### Scanned directories -/

/-- The directories that are scanned for either section. -/
structure ScanPaths where
  dependencies : List String
  devDependencies : List String
deriving Repr

namespace ScanPaths

def default : ScanPaths := ⟨["lib"], ["test", "integration_test"]⟩

def step (s : ScanPaths) : String × Datum → Except ShapeError ScanPaths
  | ("dependencies", d) => do return { s with dependencies := ← Shape.texts d }
  | ("dev_dependencies", d) => do return { s with devDependencies := ← Shape.texts d }
  | _ => .ok s

def ofDatum : Datum → Except ShapeError ScanPaths :=
  Shape.record "struct ScanPaths" .refused ["dependencies", "dev_dependencies"] step default

def ofConfig (config : RuleConfig) : Except RuleError ScanPaths :=
  match config.option? "scan_paths" with
  | none => .ok default
  | some d =>
    match ofDatum d with
    | .ok s => .ok s
    | .error e => .error (.invalidOption "scan_paths" e.message)

end ScanPaths

/-! ### Packages in use -/

def packagesOf (directives : List Directive) : List String :=
  directives.filterMap fun d => DartPackage.nameOf? d.uri

def usedIn (w : Workspace) : List Path → Logged (List String)
  | [] => return []
  | file :: rest => do
    let used := packagesOf (← DartPackage.directives w file)
    return used ++ (← usedIn w rest)

/-- The packages that the files below some directories of a package name. -/
def usedBelow (w : Workspace) (root : Path) : List String → RuleWork (List String)
  | [] => return []
  | path :: rest => do
    let directory := root.join ⟨path⟩
    let used ←
      if w.isDirectory directory then do
        let files ← DartPackage.files w directory []
        ExceptT.lift (usedIn w files)
      else pure []
    return used ++ (← usedBelow w root rest)

/-! ### The rule -/

def violation (package sectionName : String) (scanned : List String) (severity : Severity) :
    Violation :=
  ⟨Manifest.fileName, name, severity,
    s!"Package '{package}' is listed in pubspec.yaml {sectionName} but never imported in " ++
      Text.joined ", " scanned, none⟩

/-- The listed packages that are neither ignored nor used, in order. -/
def unused (listed ignored used : List String) : List String :=
  listed.filter fun p => !ignored.contains p && !used.contains p

def checkPackage (w : Workspace) (config : RuleConfig) (root : Path) :
    RuleWork (List Violation) := do
  let manifest ← DartPackage.manifest w root
  let severity ← RuleWork.ofResult
    (PatternOption.severity "severity" .warning (config.text? "severity"))
  let scanned ← RuleWork.ofResult (ScanPaths.ofConfig config)
  let ignored := (config.texts? "ignore_packages").getD usuallyIgnored
  let used ← usedBelow w root scanned.dependencies
  let found := (unused manifest.dependencies ignored used).map fun p =>
    violation p "dependencies" scanned.dependencies severity
  let foundDev ←
    if config.bool "check_dev_dependencies" true then do
      let usedDev ← usedBelow w root scanned.devDependencies
      pure <| (unused manifest.devDependencies ignored (usedDev ++ used)).map fun p =>
        violation p "dev_dependencies" scanned.devDependencies severity
    else pure []
  let found := found ++ foundDev
  RuleWork.debug s!"{name} found {found.length} unused package(s)"
  return found

def check (p : ProjectContext) (config : RuleConfig) : RuleWork (List Violation) :=
  match DartPackage.root? p.workspace p.root with
  | none => do
    RuleWork.warn s!"pubspec.yaml not found, skipping {name}"
    return []
  | some root => checkPackage p.workspace config root

def rule {σ : Type} : Rule σ :=
  .projectWide name "Finds pubspec.yaml dependencies never imported in code" [.dart] check

end SourceAudit.UnusedPackages
