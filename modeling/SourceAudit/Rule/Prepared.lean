/-
  SourceAudit/Rule/Prepared.lean
  ==============================
  **Rules with prepared answers.**

  Such a rule gives one answer after the other from a list, whatever it is asked,
  and a standing answer once the list is used up.  Its texts may name the question:
  `{n}` is its number, `{lines}` and `{ext}` are about the file, and `{files}` is the
  number of files of the run.
-/
import SourceAudit.Rule
import SourceAudit.Text.Search

namespace SourceAudit

/-- A violation to be given; without a file it is about the file in question. -/
structure PreparedViolation where
  severity : Severity
  message : String
  magnitude : Option Binary64
  file : Option String
deriving DecidableEq, Repr

abbrev PreparedAnswer := Except RuleError (List PreparedViolation)

namespace PreparedAnswer

/-- What the texts of an answer may name. -/
structure Question where
  number : Nat
  lines : Nat
  extension : String
  files : Nat
  file : String
deriving DecidableEq, Repr

def Question.names (q : Question) : List (List Char × List Char) :=
  [("\x7bn\x7d".toList, (toString q.number).toList),
    ("\x7blines\x7d".toList, (toString q.lines).toList),
    ("\x7bext\x7d".toList, q.extension.toList),
    ("\x7bfiles\x7d".toList, (toString q.files).toList)]

/-- Every `name` in a text becomes `value`; `skip` characters are still to be passed. -/
def substitute (name value : List Char) : (skip : Nat) → List Char → List Char
  | _, [] => []
  | skip + 1, _ :: rest => substitute name value skip rest
  | 0, c :: rest =>
    if name.isPrefixOf (c :: rest) then value ++ substitute name value (name.length - 1) rest
    else c :: substitute name value 0 rest

def fill (q : Question) (s : String) : String :=
  String.ofList (q.names.foldl (fun s n => substitute n.1 n.2 0 s) s.toList)

def fillError (q : Question) : RuleError → RuleError
  | .tool message => .tool (fill q message)
  | .invalidOption option message => .invalidOption option (fill q message)
  | .panicked message => .panicked (message.map (fill q))
  | .io path reason => .io path reason

def answer (rule : String) (q : Question) (a : PreparedAnswer) : RuleAnswer :=
  match a with
  | .error e => .error (fillError q e)
  | .ok given =>
    .ok <| given.map fun v =>
      ⟨v.file.getD q.file, rule, v.severity, fill q v.message, v.magnitude⟩

end PreparedAnswer

/-- A rule with prepared answers, which remembers how often it was asked. -/
def Rule.prepared (name : String) (isPerFile : Bool) (script : List PreparedAnswer)
    (standing : PreparedAnswer) : Rule Nat :=
  let answer := fun (n : Nat) (q : PreparedAnswer.Question) =>
    PreparedAnswer.answer name q (script[n]?.getD standing)
  { name := name
    description := ""
    languages := []
    check :=
      if isPerFile then
        .perFile fun f _ n =>
          pure (answer n ⟨n, f.lineCount, f.extension?.getD "", 0, f.relativePath⟩, n + 1)
      else
        .projectWide fun p _ n =>
          pure (answer n ⟨n, 0, "", p.files.length, (p.files.head?.map p.relativePath).getD ""⟩,
            n + 1) }

end SourceAudit
