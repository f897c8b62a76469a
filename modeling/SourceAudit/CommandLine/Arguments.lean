/-
  SourceAudit/CommandLine/Arguments.lean
  ======================================
  **Reading the arguments of the program.**

  The words are read from left to right.  A value that stands alone behind its flag is
  only taken in when the next flag or the end is reached, so a word that cannot stand
  there is complained about first.  A request for help or for the version ends the
  reading at once.
-/
import SourceAudit.CommandLine.Flag
import SourceAudit.Discovery
import SourceAudit.Severity

namespace SourceAudit.CommandLine

/-! ### What the arguments say -/

inductive Format where
  | text
  | json
deriving DecidableEq, Repr

inductive Verbosity where
  | minimal
  | normal
  | verbose
deriving DecidableEq, Repr

structure CheckSettings where
  language : Language
  path : Path
  rules : Option Path
  level : Option Level
  maxErrors : Option Int
  verbosity : Verbosity
  format : Format
  output : Option Path
deriving DecidableEq, Repr

inductive Command where
  | check (settings : CheckSettings)
  | listRules (language : Option Language) (format : Format)
  | init (force json : Bool)
deriving DecidableEq, Repr

structure Invocation where
  verbose : Bool
  command : Command
deriving DecidableEq, Repr

/-! ### What can be wrong -/

inductive ArgumentError where
  | noCommand
  | unknownCommand (word : String)
  | unexpected (word : String)
  | withoutValue (flag : Flag)
  | repeated (flag : Flag)
  | surplusValue (flag : Flag) (value : String)
  | invalidValue (flag : Flag) (value : String) (reason : Option String)
  | missingLanguage
deriving DecidableEq, Repr

def ArgumentError.message : ArgumentError → String
  | .noCommand => "error: 'code-analyzer' requires a subcommand but one was not provided"
  | .unknownCommand word => s!"error: unrecognized subcommand '{word}'"
  | .unexpected word => s!"error: unexpected argument '{word}' found"
  | .withoutValue flag => s!"error: a value is required for '{flag.shown}' but none was supplied"
  | .repeated flag => s!"error: the argument '{flag.shown}' cannot be used multiple times"
  | .surplusValue flag value =>
    s!"error: unexpected value '{value}' for '{flag.shown}' found; no more were expected"
  | .invalidValue flag value reason =>
    s!"error: invalid value '{value}' for '{flag.shown}'" ++ reason.elim "" fun r => s!": {r}"
  | .missingLanguage => "error: the following required arguments were not provided:"

/-- Why reading ends without a command. -/
inductive Interruption where
  | error (reason : ArgumentError)
  | noArguments                     -- nothing was asked for
  | help (form : Form)
  | version
deriving DecidableEq, Repr

/-! ### Values -/

/-- Digits as a whole number of at most `limit`. -/
def readDigits (limit : Nat) (beyond : String) : Nat → List Char → Except String Nat
  | n, [] => .ok n
  | n, c :: rest =>
    if !c.isDigit then .error "invalid digit found in string"
    else
      let next := 10 * n + (c.toNat - '0'.toNat)
      if limit < next then .error beyond else readDigits limit beyond next rest

/-- A text as an integer of 64 bits. -/
def readInteger (s : List Char) : Except String Int :=
  match s with
  | [] => .error "cannot parse integer from empty string"
  | ['-'] => .error "invalid digit found in string"
  | ['+'] => .error "invalid digit found in string"
  | '-' :: digits =>
    (readDigits 0x8000000000000000 "number too small to fit in target type" 0 digits).map fun n => -(n : Int)
  | '+' :: digits =>
    (readDigits 0x7FFFFFFFFFFFFFFF "number too large to fit in target type" 0 digits).map Int.ofNat
  | digits =>
    (readDigits 0x7FFFFFFFFFFFFFFF "number too large to fit in target type" 0 digits).map Int.ofNat

/-- A cap from the command line is at least 1. -/
def readCap (s : String) : Except String Int :=
  match readInteger s.toList with
  | .error reason => .error reason
  | .ok n => if 1 ≤ n then .ok n else .error s!"{n} is not in 1..9223372036854775807"

def readLevel (s : String) : Except String Level :=
  (Level.ofName? s).elim
    (.error s!"unknown log level `{s}`, expected: error, warning, all") .ok

def Format.ofName? : String → Option Format
  | "text" => some .text
  | "json" => some .json
  | _ => none

def Verbosity.ofName? : String → Option Verbosity
  | "minimal" => some .minimal
  | "normal" => some .normal
  | "verbose" => some .verbose
  | _ => none

/-! ### Flags taken in -/

/-- What was read behind the name of the program or of a command. -/
structure Settings where
  given : List Flag
  language : Option Language
  path : Option Path
  rules : Option Path
  level : Option Level
  maxErrors : Option Int
  verbosity : Option Verbosity
  format : Option Format
  output : Option Path
deriving DecidableEq, Repr

namespace Settings

def empty : Settings := ⟨[], none, none, none, none, none, none, none, none⟩

def readValue {α : Type} (flag : Flag) (value : String) (read : String → Except String α) :
    Except ArgumentError α :=
  match read value with
  | .ok x => .ok x
  | .error reason => .error (.invalidValue flag value (some reason))

/-- A value out of a few; none at all counts as missing. -/
def chooseValue {α : Type} (flag : Flag) (value : String) (choose : String → Option α) :
    Except ArgumentError α :=
  match choose value with
  | some x => .ok x
  | none => .error (if value = "" then .withoutValue flag else .invalidValue flag value none)

def pathValue (flag : Flag) (value : String) : Except ArgumentError Path :=
  if value = "" then .error (.withoutValue flag) else .ok ⟨value⟩

def set (s : Settings) (value : String) : Flag → Except ArgumentError Settings
  | .language => do
    let read := fun v => match Language.read v with
      | .ok l => Except.ok l
      | .error e => Except.error e.message
    return { s with language := some (← readValue .language value read) }
  | .path => do return { s with path := some (← pathValue .path value) }
  | .rules => do return { s with rules := some (← pathValue .rules value) }
  | .level => do return { s with level := some (← readValue .level value readLevel) }
  | .maxErrors => do return { s with maxErrors := some (← readValue .maxErrors value readCap) }
  | .verbosity => do
    return { s with verbosity := some (← chooseValue .verbosity value Verbosity.ofName?) }
  | .format => do return { s with format := some (← chooseValue .format value Format.ofName?) }
  | .output => do return { s with output := some (← pathValue .output value) }
  | _ => .ok s

def take (s : Settings) (flag : Flag) (value : Option String) : Except ArgumentError Settings :=
  if flag.takesValue && value.isNone then .error (.withoutValue flag)
  else if s.given.contains flag then .error (.repeated flag)
  else
    let s := { s with given := flag :: s.given }
    match value with
    | none => .ok s
    | some v => s.set v flag

end Settings

/-! ### Reading words -/

/-- The settings so far, and a flag that is not taken in yet, with its value if that
    was read. -/
structure Reading where
  settings : Settings
  pending : Option (Flag × Option String)
deriving DecidableEq, Repr

namespace Reading

def start : Reading := ⟨.empty, none⟩

/-- The next word is the value of a flag, unless it is a flag itself. -/
def awaits (r : Reading) : Option Flag :=
  match r.pending with
  | some (flag, none) => some flag
  | _ => none

def resolve (r : Reading) : Except Interruption Settings :=
  match r.pending with
  | none => .ok r.settings
  | some (flag, value) => (r.settings.take flag value).mapError .error

/-- Takes a flag in whose value stands in the same word. -/
def takeNow (r : Reading) (flag : Flag) (value : Option String) :
    Except Interruption Reading := do
  let s ← r.resolve
  let s ← (s.take flag value).mapError .error
  return ⟨s, none⟩

def takePlain (r : Reading) (form : Form) (flag : Flag) : Except Interruption Reading := do
  match flag with
  | .help => let _ ← r.resolve; .error (.help form)
  | .version => let _ ← r.resolve; .error .version
  | flag => r.takeNow flag none

def takeLater (r : Reading) (flag : Flag) : Except Interruption Reading := do
  return ⟨← r.resolve, some (flag, none)⟩

def long (r : Reading) (form : Form) (name : String) (value : Option String) :
    Except Interruption Reading :=
  match form.flags.find? fun f => f.long = name with
  | none => .error (.error (.unexpected ("--" ++ name)))
  | some flag =>
    match flag.takesValue, value with
    | true, some v => r.takeNow flag (some v)
    | true, none => r.takeLater flag
    | false, some v => .error (.error (.surplusValue flag v))
    | false, none => r.takePlain form flag

/-- The value behind a short name in the same word. -/
def attached (s : List Char) : String :=
  match s with
  | '=' :: rest => String.ofList rest
  | _ => String.ofList s

def short (form : Form) : Reading → List Char → Except Interruption Reading
  | r, [] => .ok r
  | r, c :: rest =>
    match form.flags.find? fun f => f.short? = some c with
    | none => .error (.error (.unexpected ("-" ++ String.singleton c)))
    | some flag =>
      if flag.takesValue then
        if rest.isEmpty then r.takeLater flag else r.takeNow flag (some (attached rest))
      else do short form (← r.takePlain form flag) rest

/-- A long name and the value behind an equals sign. -/
def splitLong (s : List Char) : String × Option String :=
  match s.dropWhile (· ≠ '=') with
  | [] => (String.ofList s, none)
  | _ :: value => (String.ofList (s.takeWhile (· ≠ '=')), some (String.ofList value))

end Reading

/-- What is said of a word that cannot stand where it does. -/
def strayWord (form : Form) (word : String) : ArgumentError :=
  if form = .program then .unknownCommand word else .unexpected word

/-- Reads the words behind `help`. -/
def readHelp : List String → Interruption
  | [] => .help .program
  | word :: rest =>
    match Form.command? .program word, rest with
    | none, _ => .error (.unknownCommand word)
    | some form, [] => .help form
    | some _, stray :: _ => .error (.unknownCommand stray)

/-- Reads the words behind `--`, of which there should be none. -/
def readTrailing (form : Form) (r : Reading) : List String → Except Interruption Settings
  | [] => r.resolve
  | word :: _ =>
    .error <| .error <|
      if form.startsCommand word then .unexpected word else strayWord form word

/-- Reads words up to a command, which comes out with the words behind it. -/
def readWords (form : Form) : Reading → List String →
    Except Interruption (Settings × Option (Form × List String))
  | r, [] => do return (← r.resolve, none)
  | r, word :: rest =>
    match r.awaits, form.command? word with
    | none, some command => do return (← r.resolve, some (command, rest))
    | awaited, _ =>
      if awaited.isNone && form.startsCommand word then .error (readHelp rest)
      else match awaited, word.toList with
      | _, ['-', '-'] => do return (← readTrailing form r rest, none)
      | _, '-' :: '-' :: s => do
        let (name, value) := Reading.splitLong s
        readWords form (← r.long form name value) rest
      | none, ['-'] => .error (.error (strayWord form word))
      | some flag, ['-'] => readWords form { r with pending := some (flag, some word) } rest
      | _, '-' :: s => do readWords form (← Reading.short form r s) rest
      | some flag, _ => readWords form { r with pending := some (flag, some word) } rest
      | none, _ => .error (.error (strayWord form word))

/-! ### Commands -/

def Settings.command (s : Settings) : Form → Except Interruption Command
  | .check =>
    match s.language with
    | none => .error (.error .missingLanguage)
    | some language =>
      .ok <| .check ⟨language, s.path.getD ⟨"."⟩, s.rules, s.level, s.maxErrors,
        s.verbosity.getD .normal, s.format.getD .text, s.output⟩
  | .listRules => .ok (.listRules s.language (s.format.getD .text))
  | .init => .ok (.init (s.given.contains .force) (s.given.contains .json))
  | .program => .error (if s.given.isEmpty then .noArguments else .error .noCommand)

def readArguments (words : List String) : Except Interruption Invocation := do
  let (s, found) ← readWords .program .start words
  match found with
  | none => return ⟨false, ← s.command .program⟩
  | some (form, rest) =>
    let (t, _) ← readWords form .start rest
    let command ← t.command form
    return ⟨s.given.contains .verbose || t.given.contains .verbose, command⟩

end SourceAudit.CommandLine
