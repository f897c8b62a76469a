/-
  SourceAudit/CommandLine/Flag.lean
  =================================
  **Commands and flags.**

  What may stand on a command line: the commands, the flags of each, and how a flag
  is written.  A flag with a value names it in messages.
-/
import SourceAudit.Text.Column

namespace SourceAudit.CommandLine

inductive Flag where
  | verbose
  | help
  | version
  | language
  | path
  | rules
  | level
  | maxErrors
  | verbosity
  | format
  | output
  | force
  | json
deriving DecidableEq, Repr

namespace Flag

def long : Flag → String
  | .verbose => "verbose"
  | .help => "help"
  | .version => "version"
  | .language => "language"
  | .path => "path"
  | .rules => "rules"
  | .level => "loglevel"
  | .maxErrors => "max-errors"
  | .verbosity => "verbosity"
  | .format => "format"
  | .output => "output"
  | .force => "force"
  | .json => "json"

def short? : Flag → Option Char
  | .verbose => some 'v'
  | .help => some 'h'
  | .version => some 'V'
  | .language => some 'l'
  | .path => some 'p'
  | .rules => some 'r'
  | .format => some 'f'
  | .output => some 'o'
  | _ => none

/-- What a flag with a value calls it. -/
def valueName? : Flag → Option String
  | .language => some "LANGUAGE"
  | .path => some "PATH"
  | .rules => some "RULES"
  | .level => some "LOGLEVEL"
  | .maxErrors => some "MAX_ERRORS"
  | .verbosity => some "VERBOSITY"
  | .format => some "FORMAT"
  | .output => some "OUTPUT"
  | _ => none

def takesValue (f : Flag) : Bool := f.valueName?.isSome

def shown (f : Flag) : String :=
  match f.valueName? with
  | some value => s!"--{f.long} <{value}>"
  | none => s!"--{f.long}"

def summary : Flag → String
  | .verbose => "Enable debug logging"
  | .help => "Print help"
  | .version => "Print version"
  | .language => "Language to analyze (dart, flutter, python, php, csharp, javascript, svelte, ...)"
  | .path => "File or directory to analyze [default: .]"
  | .rules => "Rules configuration file (TOML, or JSON for `.json` files)"
  | .level => "Minimum severity to report, overriding every configured level"
  | .maxErrors => "Keep at most this many violations, preferring the largest"
  | .verbosity =>
    "Console report detail [default: normal] [possible values: minimal, normal, verbose]"
  | .format => "Output format [default: text] [possible values: text, json]"
  | .output => "Directory to write `violations.csv` into"
  | .force => "Overwrite existing config"
  | .json => "Write `rules.json` instead of `code-analyzer.toml`"

end Flag

/-- The program as a whole, or one of its commands. -/
inductive Form where
  | program
  | check
  | listRules
  | init
deriving DecidableEq, Repr

namespace Form

def commands : List Form := [.check, .listRules, .init]

def word : Form → String
  | .program => "code-analyzer"
  | .check => "check"
  | .listRules => "list-rules"
  | .init => "init"

def command? (form : Form) (s : String) : Option Form :=
  if form = .program then commands.find? fun c => c.word = s else none

/-- The word is one for a command, or asks for help about one. -/
def startsCommand (form : Form) (s : String) : Bool :=
  (form.command? s).isSome || form = .program && s = "help"

def flags : Form → List Flag
  | .program => [.verbose, .help, .version]
  | .check => [.language, .path, .rules, .level, .maxErrors, .verbosity, .format, .output,
      .verbose, .help]
  | .listRules => [.language, .format, .verbose, .help]
  | .init => [.force, .json, .verbose, .help]

def summary : Form → String
  | .program => "Rule-driven static analysis with per-file threshold exceptions"
  | .check => "Analyze a project"
  | .listRules => "List available rules"
  | .init => "Initialize a configuration file"

/-- How the command is called. -/
def usage : Form → String
  | .program => "Usage: code-analyzer [OPTIONS] <COMMAND>"
  | .check => "Usage: code-analyzer check [OPTIONS] --language <LANGUAGE>"
  | .listRules => "Usage: code-analyzer list-rules [OPTIONS]"
  | .init => "Usage: code-analyzer init [OPTIONS]"

/-- A flag in a list of flags, before it is padded. -/
def flagColumn (f : Flag) : String :=
  match f.short? with
  | some c => s!"  -{c}, {f.shown}"
  | none => s!"      {f.shown}"

/-- The help text, line by line. -/
def helpLines (form : Form) : List String :=
  let commandRows := commands.map (fun c => ("  " ++ c.word, c.summary)) ++
    [("  help", "Print this message or the help of the given subcommand(s)")]
  let commandLines :=
    if form = .program then "Commands:" :: Text.twoColumns commandRows ++ [""] else []
  [form.summary, "", form.usage, ""] ++ commandLines ++
    "Options:" :: Text.twoColumns (form.flags.map fun f => (flagColumn f, f.summary))

def help (form : Form) : String := String.join (form.helpLines.map fun l => l ++ "\n")

end Form

end SourceAudit.CommandLine
