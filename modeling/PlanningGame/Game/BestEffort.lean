import PlanningGame.Encoding
import PlanningGame.Automaton.Dfa
import PlanningGame.Automaton.Composition
import PlanningGame.Game.Solution

/-!
# Best effort

The agent first tries to win against every environment: to reach the goal, or a state in which the
environment has broken its rules. If that fails, it looks for a way to get there with the help of
an environment that keeps to the rules.
-/
namespace PlanningGame

/-- Where a state lies. -/
inductive Region
  /-- The agent wins against every environment. -/
  | winning
  /-- The agent wins if the environment helps. -/
  | cooperative
  | losing
  deriving DecidableEq, Repr

/-- The name of a region. -/
def Region.text : Region → String
  | .winning => "Winning"
  | .cooperative => "Cooperative"
  | .losing => "Losing"

/-- Solutions of both games on one arena. -/
structure BestEffort where
  arena : Automaton
  adversarial : Solution
  /-- Only if the adversarial game is unrealizable. -/
  cooperative : Option Solution

namespace BestEffort

/-- The region of a state. -/
def region (result : BestEffort) (store : Store) (state : List Bool) : Region :=
  if result.arena.satisfies store result.adversarial.winningStates state then .winning
  else
    match result.cooperative with
    | some solution =>
      if result.arena.satisfies store solution.winningStates state then .cooperative else .losing
    | none => .losing

/-- The strategy to follow from a state, if there is one. -/
def strategy? (result : BestEffort) (store : Store) (state : List Bool) : Option Strategy :=
  match result.region store state with
  | .winning => some result.adversarial.strategy
  | .cooperative => result.cooperative.map (·.strategy)
  | .losing => none

end BestEffort

namespace Encoding

/-- The invariant holds and the agent has selected an applicable action. In the initial state this
asks for more than the invariant alone. -/
def stateSpace (encoding : Encoding) : DiagramM Edge :=
  Diagram.conjAll [encoding.invariant, encoding.agentMutex, encoding.agentPrecondition]

/-- No illegal choice of the agent, and either an illegal reaction or the target. -/
def adversarialGoal (encoding : Encoding) (target space : Edge) : ManagerM Edge := do
  let agentError ← encoding.agentError
  let reached ← Diagram.disj (← encoding.envError) target
  Diagram.conjAll [-agentError, reached, space]

/-- The target without an illegal choice or reaction. -/
def cooperativeGoal (encoding : Encoding) (target space : Edge) : ManagerM Edge := do
  let agentError ← encoding.agentError
  let envError ← encoding.envError
  Diagram.conjAll [-agentError, -envError, target, space]

/-- The game of the agent, who moves first. -/
def agentGame (arena : Automaton) (maxIterations : Option Nat) : Game :=
  { arena, starting := .agent, protagonist := .agent, maxIterations }

/-- The game against every environment. -/
def solveAdversarial (encoding : Encoding) (maxIterations : Option Nat) : ManagerM Solution := do
  let arena := encoding.automaton
  let space ← encoding.stateSpace
  let goal ← encoding.adversarialGoal arena.finals space
  (agentGame arena maxIterations).solve .adversarial goal space

/-- The game with the help of the environment, for the goal of the domain. -/
def solveCooperative (encoding : Encoding) (maxIterations : Option Nat) : ManagerM Solution := do
  let arena := encoding.automaton
  let space ← encoding.stateSpace
  let goal ← encoding.cooperativeGoal arena.finals space
  (agentGame arena maxIterations).solve .cooperative goal space

/-- The game against every environment, and if it is unrealizable the game for its winning states
with the help of the environment. -/
def solveBestEffort (encoding : Encoding) (maxIterations : Option Nat) :
    ManagerM BestEffort := do
  let arena := encoding.automaton
  let space ← encoding.stateSpace
  let adversarial ← encoding.solveAdversarial maxIterations
  if adversarial.realizable then
    Manager.note .info fun _ =>
      s!"Adversarial game is realizable after {adversarial.iterations} iterations"
    return ⟨arena, adversarial, none⟩
  else
    Manager.note .info fun _ =>
      "Adversarial game is unrealizable, falling back to cooperative synthesis"
    let goal ← encoding.cooperativeGoal adversarial.winningStates space
    let cooperative ← (agentGame arena maxIterations).solve .cooperative goal space
    Manager.note .info fun _ =>
      s!"Cooperative game is {Game.outcomeText cooperative.realizable} after {cooperative.iterations} iterations"
    return ⟨arena, adversarial, some cooperative⟩

/-- Best effort for an automaton over fluents instead of the goal of the domain. The target is
that the automaton accepts. -/
def solveTemporal (encoding : Encoding) (goal : Dfa) (maxIterations : Option Nat) :
    ManagerM BestEffort := do
  let monitor ← goal.symbolic
  let arena ← encoding.automaton.compose monitor goal.alphabet
  let space ← encoding.stateSpace
  let game := agentGame arena maxIterations
  let adversarialGoal ← encoding.adversarialGoal monitor.finals space
  let adversarial ← game.solve .adversarial adversarialGoal space
  let cooperative ←
    if adversarial.realizable then pure none
    else do
      let cooperativeGoal ← encoding.cooperativeGoal monitor.finals space
      pure (some (← game.solve .cooperative cooperativeGoal space))
  Manager.note .info fun _ =>
    let other := match cooperative with
      | some solution => toString solution.realizable
      | none => "skipped"
    s!"Temporal goal: adversarial {adversarial.realizable}, cooperative {other}"
  return ⟨arena, adversarial, cooperative⟩

/-- What the selected procedure finds. -/
inductive Outcome
  | adversarial (solution : Solution)
  | cooperative (solution : Solution)
  | bestEffort (result : BestEffort)

/-- Whether the first game of the selected procedure is realizable. -/
def Outcome.realizable : Outcome → Bool
  | .adversarial solution => solution.realizable
  | .cooperative solution => solution.realizable
  | .bestEffort result => result.adversarial.realizable

/-- Solve the game of a domain with the selected procedure. -/
def solve (encoding : Encoding) (algorithm : Algorithm) (maxIterations : Option Nat) :
    ManagerM Outcome := do
  Manager.note .info fun _ => s!"Running {algorithm.text} synthesis"
  match algorithm with
  | .adversarial => return .adversarial (← encoding.solveAdversarial maxIterations)
  | .cooperative => return .cooperative (← encoding.solveCooperative maxIterations)
  | .bestEffort => return .bestEffort (← encoding.solveBestEffort maxIterations)

end Encoding

end PlanningGame
