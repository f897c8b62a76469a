/-
  SourceAudit/Toml/Tree.lean
  ==========================
  **Building the tables of a TOML document.**

  Tables come to be in three ways: by a header of their own, because a header names
  a table inside them, or by a dotted key.  Which way it was decides whether they
  may still grow.  A header may complete a table that other headers only implied,
  once; a dotted key may only add to tables that dotted keys made, and a table that
  dotted keys made takes no header.  Behind the name of an array of tables its last
  table is meant.
-/
import SourceAudit.Datum

namespace SourceAudit.Toml

/-- How a table came to be. -/
inductive Origin where
  | header     -- by its own header
  | implied    -- by the header of a table inside it
  | dotted     -- by a dotted key
deriving DecidableEq, Repr

/-- What a key of a growing document holds. -/
inductive Node where
  | value (d : Datum)
  | table (origin : Origin) (entries : List (String × Node))
  | tables (items : List (List (String × Node)))
deriving Repr

abbrev Nodes := List (String × Node)

mutual

def Node.toDatum : Node → Datum
  | .value d => d
  | .table _ entries => .table (entriesToDatum entries)
  | .tables items => .list (itemsToDatum items)

def entriesToDatum : List (String × Node) → List (String × Datum)
  | [] => []
  | (key, node) :: rest => (key, node.toDatum) :: entriesToDatum rest

def itemsToDatum : List (List (String × Node)) → List Datum
  | [] => []
  | entries :: rest => .table (entriesToDatum entries) :: itemsToDatum rest

end

def append (nodes : Nodes) (key : String) (node : Node) : Nodes := nodes ++ [(key, node)]

/-- Changes the last item of a list, which must have one. -/
def changeLast? {α : Type} (change : α → Option α) : List α → Option (List α)
  | [] => none
  | [a] => (change a).map fun b => [b]
  | a :: rest => (changeLast? change rest).map (a :: ·)

/-- Puts a value under a key behind a path of tables that dotted keys may grow. -/
def assign? (value : Datum) (key : String) : (path : List String) → Nodes → Option Nodes
  | [], nodes =>
    if (nodes.lookup key).isSome then none else some (append nodes key (.value value))
  | k :: path, nodes =>
    match nodes.lookup k with
    | none => (assign? value key path []).map fun sub => append nodes k (.table .dotted sub)
    | some (.value _) => none
    | some (.table origin sub) =>
      if origin = .header || (path.isEmpty && origin = .implied) then none
      else (assign? value key path sub).map fun sub => Entries.put k (.table origin sub) nodes
    | some (.tables items) =>
      if path.isEmpty then none
      else
        (changeLast? (assign? value key path) items).map fun items =>
          Entries.put k (.tables items) nodes

/-- Changes the table a header's path leads to, making the tables on the way. -/
def descend? (change : Nodes → Option Nodes) : (path : List String) → Nodes → Option Nodes
  | [], nodes => change nodes
  | k :: path, nodes =>
    match nodes.lookup k with
    | none => (descend? change path []).map fun sub => append nodes k (.table .implied sub)
    | some (.value _) => none
    | some (.table origin sub) =>
      (descend? change path sub).map fun sub => Entries.put k (.table origin sub) nodes
    | some (.tables items) =>
      (changeLast? (descend? change path) items).map fun items =>
        Entries.put k (.tables items) nodes

/-- One line `path.key = value`. -/
structure Assignment where
  path : List String
  key : String
  value : Datum
deriving Repr

def assignAll? (assignments : List Assignment) (nodes : Nodes) : Option Nodes :=
  assignments.foldlM (fun nodes a => assign? a.value a.key a.path nodes) nodes

/-- A part of a document that a header opens: a table, or one more table of an array. -/
structure Section where
  isArrayItem : Bool
  path : List String
  key : String
  assignments : List Assignment
deriving Repr

/-- Adds the table of a header.  A table that was implied so far moves to the end. -/
def addTable? (s : Section) (nodes : Nodes) : Option Nodes :=
  match nodes.lookup s.key with
  | none => (assignAll? s.assignments []).map fun sub => append nodes s.key (.table .header sub)
  | some (.table .implied sub) =>
    (assignAll? s.assignments sub).map fun sub =>
      append (nodes.filter fun n => n.1 ≠ s.key) s.key (.table .header sub)
  | some _ => none

def addItem? (s : Section) (nodes : Nodes) : Option Nodes :=
  match nodes.lookup s.key with
  | none => (assignAll? s.assignments []).map fun sub => append nodes s.key (.tables [sub])
  | some (.tables items) =>
    (assignAll? s.assignments []).map fun sub =>
      Entries.put s.key (.tables (items ++ [sub])) nodes
  | some _ => none

def Section.addTo? (s : Section) (root : Nodes) : Option Nodes :=
  descend? (if s.isArrayItem then addItem? s else addTable? s) s.path root

def document? (first : List Assignment) (sections : List Section) : Option Datum := do
  let root ← assignAll? first []
  let nodes ← sections.foldlM (fun nodes s => s.addTo? nodes) root
  return .table (entriesToDatum nodes)

end SourceAudit.Toml
