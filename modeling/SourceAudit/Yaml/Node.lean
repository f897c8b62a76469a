/-
  SourceAudit/Yaml/Node.lean
  ==========================
  **The values of a YAML document.**

  A node is a text, a sequence or a mapping, each perhaps with the name of a type.
  References stand for the node their anchor was last put on; inside a collection,
  a reference to the collection itself stays as it is.  A text holds at most one
  document, and an empty text none.
-/
import SourceAudit.Yaml.Token

namespace SourceAudit.Yaml

inductive Node where
  | text (type : Option (List Char)) (isPlain : Bool) (value : List Char)
  | sequence (type : Option (List Char)) (items : List Node)
  | mapping (type : Option (List Char)) (entries : List (Node × Node))
  | within                                    -- a reference from inside its own anchor
deriving Repr, Inhabited

namespace Node

/-- A place where a value is left out. -/
def absent : Node := .text none true []

end Node

/-- What is known while nodes are read: the anchors, latest first, the handles of
    types, and the tokens still to be read. -/
structure Reading where
  anchors : List (List Char × Node)
  handles : List (List Char × List Char)
  tokens : List Token

abbrev Read (α : Type) := StateT Reading Option α

namespace Read

def peek? : Read (Option Token) := do return (← get).tokens.head?

def isAt (t : Token) : Read Bool := do return (← peek?) = some t

def isAtAny (ts : List Token) : Read Bool := do
  return (← peek?).any ts.contains

def skip : Read Unit := modify fun r => { r with tokens := r.tokens.tail }

def accept (t : Token) : Read Bool := do
  if ← isAt t then
    skip
    return true
  else return false

def expect (t : Token) : Read Unit := do
  if !(← accept t) then failure

def bind (anchor : Option (List Char)) (n : Node) : Read Unit :=
  match anchor with
  | none => return ()
  | some name => modify fun r => { r with anchors := (name, n) :: r.anchors }

def anchor? : Read (Option (List Char)) := do
  match ← peek? with
  | some (.anchor name) =>
    skip
    return some name
  | _ => return none

/-- The type in front of a node, its handle replaced by what it stands for. -/
def type? : Read (Option (List Char)) := do
  match ← peek? with
  | some (.typeName handle rest) =>
    skip
    if handle.isEmpty then return some rest
    else
      match (← get).handles.lookup handle with
      | some start => return some (start ++ rest)
      | none => failure
  | _ => return none

def properties : Read (Option (List Char) × Option (List Char)) := do
  match ← anchor? with
  | some name => return (some name, ← type?)
  | none =>
    let type ← type?
    return (← anchor?, type)

end Read

open Read

mutual

/-- Reads a node.  `isBlock` says that an indented collection may stand here, and
    `dashes` that the items of a sequence may stand without one. -/
def node? : (steps : Nat) → (isBlock dashes : Bool) → Read Node
  | 0, _, _ => failure
  | steps + 1, isBlock, dashes => do
    match ← peek? with
    | some (.reference name) =>
      skip
      match (← get).anchors.lookup name with
      | some n => return n
      | none => failure
    | _ =>
      let (anchor, type) ← properties
      let close := fun n : Node => do
        Read.bind anchor n
        return n
      match ← peek? with
      | some (.text isPlain value) =>
        skip
        close (.text type isPlain value)
      | some .openList =>
        skip
        Read.bind anchor .within
        close (.sequence type (← listItems? steps true))
      | some .openTable =>
        skip
        Read.bind anchor .within
        close (.mapping type (← tableEntries? steps true))
      | some .sequenceStart =>
        if !isBlock then failure
        else
          skip
          Read.bind anchor .within
          close (.sequence type (← blockItems? steps))
      | some .mappingStart =>
        if !isBlock then failure
        else
          skip
          Read.bind anchor .within
          close (.mapping type (← blockEntries? steps))
      | some .item =>
        if dashes then
          Read.bind anchor .within
          close (.sequence type (← dashItems? steps))
        else if anchor.isSome || type.isSome then close (.text type true [])
        else failure
      | _ => if anchor.isSome || type.isSome then close (.text type true []) else failure

/-- A node, unless one of the given tokens shows that it is left out. -/
def nodeUnless? : (steps : Nat) → (isBlock dashes : Bool) → List Token → Read Node
  | 0, _, _, _ => failure
  | steps + 1, isBlock, dashes, ends => do
    if ← isAtAny ends then return .absent else node? steps isBlock dashes

def blockItems? : (steps : Nat) → Read (List Node)
  | 0 => failure
  | steps + 1 => do
    if ← accept .item then
      let n ← nodeUnless? steps true false [.item, .blockEnd]
      return n :: (← blockItems? steps)
    else
      expect .blockEnd
      return []

/-- Items that stand in the column of the mapping around them. -/
def dashItems? : (steps : Nat) → Read (List Node)
  | 0 => failure
  | steps + 1 => do
    if ← accept .item then
      let n ← nodeUnless? steps true false [.item, .key, .colon, .blockEnd]
      return n :: (← dashItems? steps)
    else return []

def blockEntries? : (steps : Nat) → Read (List (Node × Node))
  | 0 => failure
  | steps + 1 => do
    if ← accept .key then
      let k ← nodeUnless? steps true true [.key, .colon, .blockEnd]
      let v ← if ← accept .colon then nodeUnless? steps true true [.key, .colon, .blockEnd]
        else pure .absent
      return (k, v) :: (← blockEntries? steps)
    else
      expect .blockEnd
      return []

/-- The items of a flow sequence; a single entry of a mapping may be an item. -/
def listItems? : (steps : Nat) → (isFirst : Bool) → Read (List Node)
  | 0, _ => failure
  | steps + 1, isFirst => do
    if ← accept .closeList then return []
    else
      if !isFirst then expect .comma
      if ← accept .closeList then return []
      else
        let n ←
          if ← accept .key then do
            let k ← node? steps false false
            let v ← if ← accept .colon then nodeUnless? steps false false [.comma, .closeList]
              else pure .absent
            pure (.mapping none [(k, v)])
          else node? steps false false
        return n :: (← listItems? steps false)

/-- The entries of a flow mapping; a node without a colon is a key without a value. -/
def tableEntries? : (steps : Nat) → (isFirst : Bool) → Read (List (Node × Node))
  | 0, _ => failure
  | steps + 1, isFirst => do
    if ← accept .closeTable then return []
    else
      if !isFirst then expect .comma
      if ← accept .closeTable then return []
      else
        let entry ←
          if ← accept .key then do
            let k ← nodeUnless? steps false false [.colon, .comma, .closeTable]
            let v ← if ← accept .colon then nodeUnless? steps false false [.comma, .closeTable]
              else pure .absent
            pure (k, v)
          else do
            let k ← node? steps false false
            pure (k, .absent)
        return entry :: (← tableEntries? steps false)

end

/-! ### Documents -/

/-- The handles that need no line of their own. -/
def commonHandles : List (List Char × List Char) :=
  [("!".toList, "!".toList), ("!!".toList, "tag:yaml.org,2002:".toList)]

/-- The lines with percent signs before a document: whether there was a version, and
    the handles. -/
def directives? : (hasVersion : Bool) → (handles : List (List Char × List Char)) →
    List Token → Option (Bool × List (List Char × List Char) × List Token)
  | hasVersion, handles, .version major minor :: rest =>
    if hasVersion || major ≠ 1 || !(minor = 1 || minor = 2) then none
    else directives? true handles rest
  | hasVersion, handles, .handle name start :: rest =>
    if (handles.lookup name).isSome then none
    else directives? hasVersion ((name, start) :: handles) rest
  | hasVersion, handles, rest => some (hasVersion, handles, rest)

def dropEnds : List Token → List Token
  | .documentEnd :: rest => dropEnds rest
  | tokens => tokens

/-- Reads the only document of a text. -/
def Node.ofTokens? (tokens : List Token) : Option (Option Node) := do
  if tokens = [.textEnd] then return none
  let (hasVersion, handles, rest) ← directives? false [] tokens
  let isExplicit : Bool := rest.head? = some .documentStart
  if (hasVersion || !handles.isEmpty) && !isExplicit then none
  else
    let content := if isExplicit then rest.tail else rest
    let steps := 4 * content.length + 8
    let ends : List Token :=
      if isExplicit then [.documentStart, .documentEnd, .textEnd] else []
    let startsDirective : Bool := match content.head? with
      | some (.version _ _) => isExplicit
      | some (.handle _ _) => isExplicit
      | _ => false
    let reading : Reading := ⟨[], handles ++ commonHandles, content⟩
    let (n, reading) ←
      if startsDirective then pure (Node.absent, reading)
      else (nodeUnless? steps true false ends).run reading
    if dropEnds reading.tokens = [.textEnd] then return some n else none

/-- Reads a text; nothing at all when it is no YAML text of at most one document. -/
def read? (s : List Char) : Option (Option Node) := do
  Node.ofTokens? (← tokens? s)

end SourceAudit.Yaml
