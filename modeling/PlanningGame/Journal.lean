/-!
# Journal

The operations report what they do at five levels. A journal keeps the messages of the levels it
was opened for, in order; a message of another level is never built.
-/
namespace PlanningGame

/-- How important a message is. -/
inductive Level
  | error
  | warn
  | info
  | debug
  | trace
  deriving DecidableEq, Repr

/-- The word for a level in front of its messages. -/
def Level.label : Level → String
  | .error => "error"
  | .warn => "warn"
  | .info => "info"
  | .debug => "debug"
  | .trace => "trace"

/-- All levels, most important first. -/
def Level.all : List Level := [.error, .warn, .info, .debug, .trace]

/-- The level with a given word. -/
def Level.ofLabel? (label : String) : Option Level :=
  Level.all.find? (·.label = label)

/-- Messages kept so far. -/
structure Journal where
  /-- Levels whose messages are kept. -/
  levels : List Level := []
  /-- The messages, oldest first. -/
  entries : Array (Level × String) := #[]

namespace Journal

/-- Keep a message if its level is wanted. -/
def record (journal : Journal) (level : Level) (message : Unit → String) : Journal :=
  if level ∈ journal.levels then
    { journal with entries := journal.entries.push (level, message ()) }
  else journal

/-- The messages as lines, each with its level in front. -/
def lines (journal : Journal) : List String :=
  journal.entries.toList.map fun (level, message) => level.label ++ ": " ++ message

end Journal

end PlanningGame
