import PlanningGame.Failure

/-!
# Settings

Sizes of the two tables of a diagram store, the choice of a solving procedure and of a treatment
of agent errors.
-/
namespace PlanningGame

/-- Sizes of the tables, as powers of two. -/
structure TableSizes where
  /-- The node table starts with room for `2 ^ storageBits` nodes. -/
  storageBits : Nat := 20
  /-- The computed table has `2 ^ cacheBits` places. -/
  cacheBits : Nat := 16
  deriving DecidableEq, Repr

/-- Sizes for a given node table. The computed table follows it up to `2 ^ 16` places. -/
def TableSizes.ofStorageBits (bits : Nat) : TableSizes :=
  ⟨bits, min bits 16⟩

/-- Which game is solved. -/
inductive Algorithm
  /-- Win against every environment. -/
  | adversarial
  /-- Win with the help of the environment. -/
  | cooperative
  /-- Win against every environment, or else with its help. -/
  | bestEffort
  deriving DecidableEq, Repr

namespace Algorithm

/-- The name by which a procedure is selected. -/
def text : Algorithm → String
  | .adversarial => "adversarial"
  | .cooperative => "cooperative"
  | .bestEffort => "best-effort"

/-- A procedure as a field of a record. -/
def detail : Algorithm → String
  | .adversarial => "Adversarial"
  | .cooperative => "Cooperative"
  | .bestEffort => "BestEffort"

/-- The procedure with the given name. -/
def ofText (text : String) : Except Error Algorithm :=
  match text with
  | "adversarial" => .ok .adversarial
  | "cooperative" => .ok .cooperative
  | "best-effort" => .ok .bestEffort
  | _ => .error (.unsupportedAlgorithm text)

end Algorithm

/-- How an illegal choice of the agent is tracked. -/
inductive AgentErrorMode
  /-- States after an illegal choice are left out of the state space. -/
  | invariant
  /-- An extra state bit remembers an illegal choice for ever. -/
  | errorBit
  deriving DecidableEq, Repr

namespace AgentErrorMode

/-- The name by which a treatment is selected. -/
def text : AgentErrorMode → String
  | .invariant => "invariant"
  | .errorBit => "error-bit"

/-- A treatment as a field of a record. -/
def detail : AgentErrorMode → String
  | .invariant => "Invariant"
  | .errorBit => "ErrorBit"

/-- The treatment with the given name. -/
def ofText (text : String) : Except Error AgentErrorMode :=
  match text with
  | "invariant" => .ok .invariant
  | "error-bit" => .ok .errorBit
  | _ => .error (.unsupportedAgentErrorMode text)

end AgentErrorMode

end PlanningGame
