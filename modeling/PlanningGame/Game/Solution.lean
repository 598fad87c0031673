import PlanningGame.Diagram.Reachable
import PlanningGame.Game.Strategy

/-!
# Solving games

The states from which the protagonist reaches the goal are found backwards. The first moves are
those in the goal. In every iteration the moves that lead into the states found so far are added
for the states that are new, and the states are read off the moves again. This ends when the
initial state is found or nothing is added.
-/
namespace PlanningGame

/-- What is known of a game after solving it. -/
structure Solution where
  /-- The initial state is winning. -/
  realizable : Bool
  /-- States from which the protagonist reaches the goal. -/
  winningStates : Edge
  /-- States with the moves that were found for them. -/
  winningMoves : Edge
  /-- Chooses one of the moves. It exists for unrealizable games too. -/
  strategy : Strategy
  iterations : Nat
  /-- The winning states after each iteration. -/
  layers : List Edge

namespace Game

/-- The words for the outcome of a game. -/
def outcomeText (realizable : Bool) : String :=
  if realizable then "realizable" else "unrealizable"

/-- Moves and states after one more iteration. -/
def iterate (game : Game) (attitude : Attitude) (space moves states : Edge) :
    DiagramM (Edge × Edge) := do
  let leading ← game.preimage attitude states
  let fresh ← Diagram.conj (← Diagram.conj space (-states)) leading
  let moves ← Diagram.disj moves fresh
  return (moves, ← game.project attitude moves)

/-- Iterate at most `remaining` times. The layers found so far are given latest first. -/
def solveFrom (game : Game) (attitude : Attitude) (space : Edge) :
    Nat → Edge → Edge → List Edge → DiagramM Solution
  | 0, _, _, layers => throw (.refused (.fixpointDiverged layers.length))
  | remaining + 1, moves, states, layers => do
    let (moves, newStates) ← game.iterate attitude space moves states
    let layers := newStates :: layers
    let store ← Diagram.current
    let iterations := layers.length
    Diagram.note .trace fun _ =>
      s!"Iteration {iterations}: |W| = {store.diagramSize newStates}, |M| = {store.diagramSize moves}"
    let realizable := game.includesInitial store newStates
    if realizable ∨ newStates = states then
      Diagram.note .info fun _ =>
        s!"Fixpoint after {iterations} iterations: {outcomeText realizable} for the {game.protagonist.text}"
      let functions ← game.extract moves
      return {
        realizable
        winningStates := newStates
        winningMoves := moves
        strategy := ⟨game.arena, functions, game.starting, game.protagonist⟩
        iterations
        layers := layers.reverse }
    else solveFrom game attitude space remaining moves newStates layers

/-- Solve a game for a goal, within the admissible states and moves. -/
def solve (game : Game) (attitude : Attitude) (goal space : Edge) : DiagramM Solution := do
  let moves ← Diagram.conj space goal
  let states ← Diagram.quantifyExists moves (game.arena.inputs ++ game.arena.outputs)
  solveFrom game attitude space game.iterationBound moves states []

end Game

end PlanningGame
