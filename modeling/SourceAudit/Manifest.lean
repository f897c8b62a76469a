/-
  SourceAudit/Manifest.lean
  =========================
  **The manifest of a Dart package.**

  The file `pubspec.yaml` gives a package its name and lists what it depends on.  An
  empty manifest is a manifest without entries.  Of other entries only the form is
  looked at; the entries of a dependency must be complete values, in which no
  mapping has a key twice.
-/
import SourceAudit.Yaml.Node
import SourceAudit.Datum
import SourceAudit.Json.Printer
import SourceAudit.Rule

namespace SourceAudit

/-! ### Values of plain texts -/

namespace Yaml

/-- The type with a given name of the standard. -/
def coreType (name : String) : List Char := "tag:yaml.org,2002:".toList ++ name.toList

def isNull (s : List Char) : Bool :=
  s = "null".toList || s = "Null".toList || s = "NULL".toList || s = "~".toList

def bool? (s : List Char) : Option Bool :=
  if s = "true".toList || s = "True".toList || s = "TRUE".toList then some true
  else if s = "false".toList || s = "False".toList || s = "FALSE".toList then some false
  else none

/-- Digits that are a text because they start with a zero. -/
def isPadded (s : List Char) : Bool :=
  let (_, digits) := Binary64.splitSign s
  1 < digits.length && digits.head? = some '0' && digits.all Char.isDigit

def inBase? (base : Nat) (s : List Char) : Option Nat :=
  if !s.isEmpty && s.all fun c => (Text.hexValue? c).any (· < base) then
    some (s.foldl (fun n c => base * n + (Text.hexValue? c).getD 0) 0)
  else none

def magnitude? (s : List Char) : Option Nat :=
  match s with
  | '0' :: 'x' :: rest => inBase? 16 rest
  | '0' :: 'o' :: rest => inBase? 8 rest
  | '0' :: 'b' :: rest => inBase? 2 rest
  | _ => if isPadded s then none else inBase? 10 s

def integer? (s : List Char) : Option Int :=
  match s with
  | '-' :: rest => ((magnitude? rest).filter (· ≤ 0x80000000000000000000000000000000)).map fun n => -(n : Int)
  | '+' :: rest => ((magnitude? rest).filter (· < 0x100000000000000000000000000000000)).map Int.ofNat
  | _ => ((magnitude? s).filter (· < 0x100000000000000000000000000000000)).map Int.ofNat

def real? (s : List Char) : Option Binary64 :=
  let (negative, body) := Binary64.splitSign s
  let names := fun forms : List String => forms.any fun f => body = f.toList
  if names [".inf", ".Inf", ".INF"] then some (Binary64.infinity negative)
  else if names [".nan", ".NaN", ".NAN"] && body = s then some (Binary64.nan false)
  else (Binary64.ofText? s).filter Binary64.isFinite

/-- What a plain text stands for. -/
def plainDatum (s : List Char) : Datum :=
  if s.isEmpty || isNull s then .null
  else
    match bool? s, integer? s with
    | some b, _ => .bool b
    | none, some i => .number (.integer i)
    | none, none =>
      match if isPadded s then none else real? s with
      | some x => .number (.real x)
      | none => .text (String.ofList s)

/-- What a text stands for; a type of the standard must fit it. -/
def textDatum? (type : Option (List Char)) (isPlain : Bool) (s : List Char) : Option Datum :=
  match type with
  | none => some (if isPlain then plainDatum s else .text (String.ofList s))
  | some t =>
    if t = coreType "bool" then (bool? s).map .bool
    else if t = coreType "int" then (integer? s).map fun i => .number (.integer i)
    else if t = coreType "float" then (real? s).map fun x => .number (.real x)
    else if t = coreType "null" then if isNull s then some .null else none
    else if t.head? = some '!' && isPlain then some (plainDatum s)
    else some (.text (String.ofList s))

/-- A written form that tells values apart. -/
def identity (d : Datum) : String := Json.compact d.canonical

mutual

/-- The value of a node, if it is one: complete, without a mapping that has a key
    twice, and with at most `depth` collections inside each other. -/
def Node.toDatum? : (depth : Nat) → Node → Option Datum
  | _, .text type isPlain s => textDatum? type isPlain s
  | 0, _ => none
  | depth + 1, .sequence _ items => (itemsToDatum? depth items).map .list
  | depth + 1, .mapping _ entries => do
    let entries ← entriesToDatum? depth entries
    if (entries.map Prod.fst).eraseDups.length = entries.length then some (.table entries)
    else none
  | _, .within => none

def itemsToDatum? : (depth : Nat) → List Node → Option (List Datum)
  | _, [] => some []
  | depth, n :: rest => do
    let d ← n.toDatum? depth
    return d :: (← itemsToDatum? depth rest)

def entriesToDatum? : (depth : Nat) → List (Node × Node) → Option (List (String × Datum))
  | _, [] => some []
  | depth, (k, v) :: rest => do
    let key ← k.toDatum? depth
    let value ← v.toDatum? depth
    return (identity key, value) :: (← entriesToDatum? depth rest)

end

/-- The text of a node, whatever it would stand for. -/
def Node.string? : Node → Option String
  | .text _ _ s => some (String.ofList s)
  | _ => none

/-- A node that is there; nothing for one that stands for no value. -/
def Node.given? : Node → Option (Option Node)
  | .text type isPlain s =>
    if !isPlain then some (some (.text type isPlain s))
    else
      match type with
      | none => some (if s.isEmpty || isNull s then none else some (.text none true s))
      | some t =>
        if t = coreType "null" then if isNull s then some none else none
        else some (some (.text type true s))
  | n => some (some n)

end Yaml

/-! ### Manifests -/

/-- What the rules read of a manifest. -/
structure Manifest where
  name : Option String
  /-- The packages it depends on, sorted. -/
  dependencies : List String
  /-- The packages its development depends on, sorted. -/
  devDependencies : List String
deriving DecidableEq, Repr

namespace Manifest

def fileName : String := "pubspec.yaml"

def empty : Manifest := ⟨none, [], []⟩

/-- No more collections than this may lie inside each other. -/
def maxDepth : Nat := 128

/-- The names of a section; the values only need to be values. -/
def sectionNames? (n : Yaml.Node) : Option (List String) := do
  match ← n.given? with
  | none => return []
  | some (.mapping _ entries) =>
    let names ← entries.mapM fun e => do
      let name ← e.1.string?
      let _ ← e.2.toDatum? (maxDepth - 2)
      return name
    return Entries.sortedNames names
  | some _ => none

def packageName? (n : Yaml.Node) : Option (Option String) := do
  match ← n.given? with
  | none => return none
  | some n => return some (← n.string?)

def field? (m : Manifest) (key : String) (value : Yaml.Node) : Option Manifest :=
  if key = "name" then (packageName? value).map fun name => { m with name := name }
  else if key = "dependencies" then
    (sectionNames? value).map fun names => { m with dependencies := names }
  else if key = "dev_dependencies" then
    (sectionNames? value).map fun names => { m with devDependencies := names }
  else some m

/-- The manifest of a document; the entries that are read stand at most once. -/
def ofNode? (n : Yaml.Node) : Option Manifest := do
  match ← n.given? with
  | none => return empty
  | some (.mapping _ entries) =>
    let entries ← entries.mapM fun e => do return (← e.1.string?, e.2)
    let known := (entries.map Prod.fst).filter
      fun k => ["name", "dependencies", "dev_dependencies"].contains k
    if known.eraseDups.length ≠ known.length then none
    else entries.foldlM (fun m e => m.field? e.1 e.2) empty
  | some _ => none

def ofText? (s : String) : Option Manifest := do
  match ← Yaml.read? s.toList with
  | none => return empty
  | some n => ofNode? n

def ofFile (w : Workspace) (p : Path) : Except RuleError Manifest :=
  match w.readText p with
  | .error reason => .error (.io p reason)
  | .ok s => (ofText? s).elim (.error (.tool s!"invalid {p.text}: <yaml>")) .ok

end Manifest

end SourceAudit
