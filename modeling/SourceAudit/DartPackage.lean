/-
  SourceAudit/DartPackage.lean
  ============================
  **Dart packages.**

  A package is a directory with a manifest.  Its files name each other by relative
  URIs or by `package:` URIs, which begin with the name of a package.
-/
import SourceAudit.Manifest
import SourceAudit.Discovery
import SourceAudit.Directive
import SourceAudit.Rule.PatternOption

namespace SourceAudit.DartPackage

/-- The directory of the nearest manifest, at a path or around it. -/
def root? (w : Workspace) (start : Path) : Option Path :=
  start.ancestors.find? fun d => w.isFile (d.child Manifest.fileName)

def manifest (w : Workspace) (root : Path) : RuleWork Manifest :=
  RuleWork.ofResult (Manifest.ofFile w (root.child Manifest.fileName))

/-- How the URIs of a package begin. -/
def ownStart (name : String) : String := s!"package:{name}/"

/-- What follows a known beginning of a URI. -/
def afterStart? (start uri : String) : Option String :=
  (Text.afterStart? start.toList uri.toList).map String.ofList

def nameOf? (uri : String) : Option String := do
  let rest ← Text.afterStart? "package:".toList uri.toList
  let name := rest.takeWhile (· ≠ '/')
  if name.isEmpty then none else some (String.ofList name)

/-- The Dart files below a directory, folded, without those that are left out. -/
def files (w : Workspace) (directory : Path) (excludes : List Glob) :
    RuleWork (List Path) := do
  match ← ExceptT.lift ((⟨.dart, [], true⟩ : Discovery).discover w directory) with
  | .error e => RuleWork.fail (.tool e.message)
  | .ok found =>
    return (found.map Path.folded).filter fun file =>
      let relative := ((file.relativeTo? directory.folded).map Path.slashText).getD ""
      !PatternOption.leavesOut excludes file relative

/-- The statements of a Dart file; none, with a warning, when it cannot be read. -/
def directives (w : Workspace) (file : Path) : Logged (List Directive) :=
  match w.readText file with
  | .ok s => return Directive.ofText .dart s.toList
  | .error reason => do
    Logged.warn s!"Skipping unreadable file {file.text}: {reason.message}"
    return []

end SourceAudit.DartPackage
