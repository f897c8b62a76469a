/-
  SourceAudit/Event.lean
  ======================
  **The log of a run.**

  What happens during a run is told by events, in order.  A computation that logs
  is a value together with its events; sequencing appends them.
-/

namespace SourceAudit

/-- The weight of an event, lightest first. -/
inductive EventLevel where
  | trace
  | debug
  | info
  | warn
deriving DecidableEq, Repr

def EventLevel.name : EventLevel → String
  | .trace => "TRACE"
  | .debug => "DEBUG"
  | .info => "INFO"
  | .warn => "WARN"

/-- One line of the log. -/
structure Event where
  level : EventLevel
  message : String
deriving DecidableEq, Repr

def Event.line (e : Event) : String := s!"{e.level.name} {e.message}"

/-- A value and the events told on the way to it. -/
structure Logged (α : Type) where
  value : α
  events : List Event

namespace Logged

instance : Monad Logged where
  pure a := ⟨a, []⟩
  bind x f := ⟨(f x.value).value, x.events ++ (f x.value).events⟩

@[simp] theorem value_pure {α : Type} (a : α) : (pure a : Logged α).value = a := rfl

@[simp] theorem value_bind {α β : Type} (x : Logged α) (f : α → Logged β) :
    (x >>= f).value = (f x.value).value := rfl

def tell (level : EventLevel) (message : String) : Logged Unit := ⟨(), [⟨level, message⟩]⟩

def trace (message : String) : Logged Unit := tell .trace message
def debug (message : String) : Logged Unit := tell .debug message
def info (message : String) : Logged Unit := tell .info message
def warn (message : String) : Logged Unit := tell .warn message

end Logged

end SourceAudit
