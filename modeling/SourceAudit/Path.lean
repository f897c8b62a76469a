/-
  SourceAudit/Path.lean
  =====================
  **Paths as texts and as components.**

  A path is kept as it was written, because reports and messages show it that way.
  What it names is decided by its components: the root of an absolute path, a
  leading `.`, every `..`, and the names between slashes.  Empty segments and any
  other `.` do not count.  Operations that cut a path work on the written segments,
  so that what is left reads as before.
-/
import SourceAudit.Text.Search

namespace SourceAudit

structure Path where
  text : String
deriving DecidableEq, Repr, Inhabited

namespace Path

inductive Component where
  | root
  | here
  | up
  | name (text : String)
deriving DecidableEq, Repr

def segments (p : Path) : List String :=
  (Text.segments '/' p.text.toList).map String.ofList

def isAbsolute (p : Path) : Bool := p.text.toList.head? = some '/'

/-- A segment that is no component of its own. -/
def isSilent (segment : String) : Bool := segment = "" || segment = "."

def component (segment : String) : Component :=
  if segment = ".." then .up else .name segment

/-- The components of the segments behind the first. -/
def bodyComponents (segments : List String) : List Component :=
  (segments.filter fun s => !isSilent s).map component

def components (p : Path) : List Component :=
  match p.segments with
  | [] => []
  | first :: rest =>
    if p.isAbsolute then .root :: bodyComponents rest
    else if first = "." then .here :: bodyComponents rest
    else bodyComponents (first :: rest)

def ofSegments (segments : List String) : Path :=
  ⟨Text.joined "/" segments⟩

def Component.text : Component → String
  | .root => ""
  | .here => "."
  | .up => ".."
  | .name s => s

/-- The plainest text of a list of components. -/
def ofComponents (components : List Component) : Path :=
  match components with
  | [.root] => ⟨"/"⟩
  | cs => ofSegments (cs.map Component.text)

/-- `p` below `base`, unless `p` is absolute. -/
def join (base p : Path) : Path :=
  if p.isAbsolute then p
  else if base.text.isEmpty || base.text.toList.getLast? = some '/' then ⟨base.text ++ p.text⟩
  else ⟨base.text ++ "/" ++ p.text⟩

/-- `join` with a plain name. -/
def child (base : Path) (name : String) : Path := base.join ⟨name⟩

/-! ### Cutting -/

/-- The segments without silent ones at the end. -/
def dropSilentEnd (segments : List String) : List String :=
  (segments.reverse.dropWhile isSilent).reverse

/-- A list of segments as a path: the first one marks the root or a leading `.`. -/
def withHead (absolute : Bool) (head : String) (body : List String) : Path :=
  match body with
  | [] => if absolute then ⟨"/"⟩ else ⟨head⟩
  | _ => ofSegments (head :: body)

def trimmed (p : Path) : Path :=
  match p.segments with
  | [] => p
  | first :: rest =>
    if p.isAbsolute || first = "." then withHead p.isAbsolute first (dropSilentEnd rest)
    else ofSegments (dropSilentEnd (first :: rest))

/-- The path without its last component; nothing for the root and the empty path. -/
def parent? (p : Path) : Option Path :=
  match p.segments with
  | [] => none
  | first :: rest =>
    if p.isAbsolute then
      match dropSilentEnd rest with
      | [] => none
      | body => some (withHead true first (dropSilentEnd body.dropLast))
    else if first = "." then
      match dropSilentEnd rest with
      | [] => some ⟨""⟩
      | body => some (withHead false first (dropSilentEnd body.dropLast))
    else
      match dropSilentEnd (first :: rest) with
      | [] => none
      | body => some (ofSegments (dropSilentEnd body.dropLast))

/-- Drops the first `n` segments that count. -/
def dropCounted : Nat → List String → List String
  | 0, segments => segments
  | _ + 1, [] => []
  | n + 1, s :: rest => if isSilent s then dropCounted (n + 1) rest else dropCounted n rest

/-- What is left of a path behind a base whose components it starts with. -/
def relativeTo? (p base : Path) : Option Path :=
  let start := base.components
  if start.isPrefixOf p.components then
    match start, p.segments with
    | [], _ => some p.trimmed
    | _, [] => some p
    | .root :: more, _ :: rest =>
      some (ofSegments (dropSilentEnd ((dropCounted more.length rest).dropWhile isSilent)))
    | .here :: more, _ :: rest =>
      some (ofSegments (dropSilentEnd ((dropCounted more.length rest).dropWhile isSilent)))
    | more, segments =>
      some (ofSegments (dropSilentEnd ((dropCounted more.length segments).dropWhile isSilent)))
  else none

def endsInDot (p : Path) : Bool :=
  (p.segments.filter fun s => s ≠ "").getLast? = some "."

/-! ### Names -/

/-- The last component, when it is a name. -/
def fileName? (p : Path) : Option String :=
  match p.components.getLast? with
  | some (.name s) => some s
  | _ => none

/-- The part of a file name after its last dot, unless only dots or nothing stand
    before that dot because it is the first character. -/
def nameExtension? (name : String) : Option String :=
  let reversed := name.toList.reverse
  let after := reversed.takeWhile (· ≠ '.')
  match reversed.dropWhile (· ≠ '.') with
  | [] => none
  | [_] => none
  | _ => some (String.ofList after.reverse)

def extension? (p : Path) : Option String := p.fileName?.bind nameExtension?

/-- The path itself and every path around it, innermost first. -/
def ancestors (p : Path) : List Path :=
  go p.text.length p
where
  go : Nat → Path → List Path
    | 0, p => [p]
    | steps + 1, p =>
      match p.parent? with
      | none => [p]
      | some q => p :: go steps q

/-! ### Folding `.` and `..` -/

/-- Adds a component to a folded path, whose last component comes first.  A `..`
    takes the component before it away, whatever that is, and stays when there is
    only the root or nothing. -/
def foldStep (folded : List Component) : Component → List Component
  | .here => folded
  | .up =>
    match folded with
    | [] => [.up]
    | [.root] => [.up, .root]
    | _ :: rest => rest
  | .root => [.root]
  | .name s => .name s :: folded

/-- The components with `.` and `..` folded, without asking the file tree. -/
def foldComponents (components : List Component) : List Component :=
  (components.foldl foldStep []).reverse

def folded (p : Path) : Path := ofComponents (foldComponents p.components)

def slashText (p : Path) : String := String.ofList (Text.forwardSlashes p.text.toList)

/-- The path behind `base` for display, or the whole path when it lies elsewhere. -/
def displayedFrom (p base : Path) : String :=
  ((p.relativeTo? base).getD p).slashText

/-! ### Order -/

/-- Where a component stands among components of different kinds. -/
def Component.kindRank : Component → Nat
  | .root => 0
  | .here => 1
  | .up => 2
  | .name _ => 3

def Component.before (a b : Component) : Bool :=
  match a, b with
  | .name s, .name t => decide (s < t)
  | a, b => decide (a.kindRank < b.kindRank)

/-- The order of component lists: the first difference decides. -/
def componentsLe : List Component → List Component → Bool
  | [], _ => true
  | _ :: _, [] => false
  | a :: as, b :: bs => a.before b || (a = b && componentsLe as bs)

def le (p q : Path) : Bool := componentsLe p.components q.components

end Path

end SourceAudit
