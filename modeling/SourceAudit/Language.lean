/-
  SourceAudit/Language.lean
  =========================
  **The languages whose files are analysed.**

  A language is known by a name and by aliases, in any ASCII case, and its files by
  their extensions, likewise in any case.
-/
import SourceAudit.Path

namespace SourceAudit

inductive Language where
  | dart
  | python
  | php
  | csharp
  | javascript
  | svelte
deriving DecidableEq, Repr

namespace Language

def all : List Language := [.dart, .python, .php, .csharp, .javascript, .svelte]

def name : Language → String
  | .dart => "dart"
  | .python => "python"
  | .php => "php"
  | .csharp => "csharp"
  | .javascript => "javascript"
  | .svelte => "svelte"

/-- The names a language answers to, its own first. -/
def aliases : Language → List String
  | .dart => ["dart", "flutter"]
  | .python => ["python", "py"]
  | .php => ["php"]
  | .csharp => ["csharp", "cs"]
  | .javascript => ["javascript", "js", "typescript", "ts"]
  | .svelte => ["svelte"]

def extensions : Language → List String
  | .dart => ["dart"]
  | .python => ["py"]
  | .php => ["php"]
  | .csharp => ["cs"]
  | .javascript => ["js", "jsx", "ts", "tsx", "mjs", "cjs"]
  | .svelte => ["svelte", "js", "ts"]

def lowered (s : String) : String := String.ofList (Text.lowerAscii s.toList)

def ofName? (s : String) : Option Language :=
  all.find? fun l => l.aliases.contains (lowered s)

def owns (l : Language) (p : Path) : Bool :=
  p.extension?.any fun e => l.extensions.contains (lowered e)

end Language

end SourceAudit
