import PlanningGame.Binary
import PlanningGame.Automaton.Basic
import PlanningGame.Diagram.Quantifier

/-!
# Reachability games

In every round of a game on an automaton one player fixes its variables, the other player answers,
and the automaton moves to the next state. The agent owns the outputs, the environment the inputs.
The protagonist wants to reach a goal, against the opponent or with its help.
-/
namespace PlanningGame

/-- Who plays. -/
inductive Player
  | agent
  | environment
  deriving DecidableEq, Repr

namespace Player

/-- The name of a player in messages. -/
def text : Player → String
  | .agent => "agent"
  | .environment => "environment"

/-- The player with a given name. -/
def ofText? : String → Option Player
  | "agent" => some .agent
  | "environment" => some .environment
  | _ => none

/-- A player as a field of a record. -/
def detail : Player → String
  | .agent => "Agent"
  | .environment => "Environment"

/-- The variables that a player fixes, in bit order. -/
def vars (player : Player) (arena : Automaton) : List Var :=
  match player with
  | .agent => arena.outputs
  | .environment => arena.inputs

end Player

/-- How the opponent plays. -/
inductive Attitude
  /-- The opponent may do anything. -/
  | adversarial
  /-- The opponent helps the protagonist. -/
  | cooperative
  deriving DecidableEq, Repr

/-- An arena with its players. -/
structure Game where
  arena : Automaton
  /-- Who moves first in every round. -/
  starting : Player
  /-- Who wants to reach the goal. -/
  protagonist : Player
  /-- The environment moves that are considered. -/
  constraint : Edge := .one
  /-- A bound on the iterations, instead of the one that follows from the number of states. -/
  maxIterations : Option Nat := none

namespace Game

/-- The variables of the protagonist, in bit order. -/
def protagonistVars (game : Game) : List Var :=
  game.protagonist.vars game.arena

/-- The moves after which the next state satisfies a state predicate. -/
def nextStep (game : Game) (states : Edge) : DiagramM Edge :=
  Diagram.substitute states game.arena.nextValues

/-- Every considered environment move satisfies the predicate. -/
def forallInputs (game : Game) (edge : Edge) : DiagramM Edge := do
  Diagram.quantifyForall (← Diagram.imply game.constraint edge) game.arena.inputs

/-- Some considered environment move satisfies the predicate. -/
def existsInputs (game : Game) (edge : Edge) : DiagramM Edge := do
  Diagram.quantifyExists (← Diagram.conj game.constraint edge) game.arena.inputs

/-- The moves from which the protagonist gets to the given states: whatever the opponent answers,
or by some answer of the opponent. -/
def preimage (game : Game) (attitude : Attitude) (states : Edge) : DiagramM Edge := do
  let next ← game.nextStep states
  match attitude, game.starting, game.protagonist with
  | .adversarial, .agent, .agent => game.forallInputs next
  | .adversarial, .environment, .environment => Diagram.quantifyForall next game.arena.outputs
  | .adversarial, _, _ => return next
  | .cooperative, _, .agent => game.existsInputs next
  | .cooperative, _, .environment => Diagram.quantifyExists next game.arena.outputs

/-- The states in which the protagonist has one of the given moves: whatever the opponent does
first, or for some play of the opponent. -/
def project (game : Game) (attitude : Attitude) (moves : Edge) : DiagramM Edge := do
  let outputs := game.arena.outputs
  match attitude, game.starting, game.protagonist with
  | .adversarial, .agent, .agent => Diagram.quantifyExists moves outputs
  | .adversarial, .agent, .environment =>
    Diagram.quantifyForall (← game.existsInputs moves) outputs
  | .adversarial, .environment, .agent =>
    game.forallInputs (← Diagram.quantifyExists moves outputs)
  | .adversarial, .environment, .environment => game.existsInputs moves
  | .cooperative, _, _ => Diagram.quantifyExists (← game.existsInputs moves) outputs

/-- Whether the initial state is among the given states. -/
def includesInitial (game : Game) (store : Store) (states : Edge) : Bool :=
  game.arena.satisfies store states game.arena.initial

/-- The largest number of iterations that can be counted. -/
def lastIteration : Nat := 0xFFFFFFFFFFFFFFFF

/-- Iterations after which something must be wrong: one more than there are states, unless a bound
is given. -/
def iterationBound (game : Game) : Nat :=
  game.maxIterations.getD (min (Binary.codes game.arena.initial.length + 1) lastIteration)

end Game

end PlanningGame
