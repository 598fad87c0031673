import PlanningGame.Binary
import PlanningGame.Game.Basic

/-!
# Strategies

A strategy is a machine that reads the state of an arena, and what the opponent does if it moves
first, and gives a value for each variable of the protagonist. Its functions are only meaningful in
the states it was extracted for.
-/
namespace PlanningGame

/-- A function for each variable of the protagonist. -/
structure Strategy where
  arena : Automaton
  functions : Std.TreeMap Var Edge
  starting : Player
  protagonist : Player

namespace Strategy

/-- The values of the protagonist's variables, in the order of the variables. What the opponent
does is read from `observed`. -/
def output (strategy : Strategy) (store : Store) (state : List Bool) (observed : Valuation) :
    Except Error (List (Var × Bool)) :=
  let expected := strategy.arena.initial.length
  if state.length = expected then
    let valuation := strategy.arena.valuation state observed
    .ok (strategy.functions.toList.map fun (v, edge) => (v, store.eval edge valuation))
  else .error (.stateLength expected state.length)

/-- The protagonist's move as a number, in the bit order of the arena. -/
def choice (strategy : Strategy) (store : Store) (state : List Bool) (observed : Valuation) :
    Except Error Nat := do
  let values ← strategy.output store state observed
  return Binary.decode ((strategy.protagonist.vars strategy.arena).map fun v =>
    (values.lookup v).getD false)

/-- The next state when the opponent does what is given and the protagonist follows the
strategy. -/
def next (strategy : Strategy) (store : Store) (state : List Bool) (opponent : Valuation) :
    Except Error (List Bool) := do
  let values ← strategy.output store state opponent
  strategy.arena.step store state
    (opponent.assign (values.map (·.1)) (values.map (·.2)))

/-- The states from a given one on, against a sequence of opponent moves. -/
def playFrom (strategy : Strategy) (store : Store) (state : List Bool) :
    List Valuation → Except Error (List (List Bool))
  | [] => .ok [state]
  | opponent :: rest => do
    let next ← strategy.next store state opponent
    return state :: (← strategy.playFrom store next rest)

/-- The states from the initial one on, against a sequence of opponent moves. -/
def play (strategy : Strategy) (store : Store) (opponent : List Valuation) :
    Except Error (List (List Bool)) :=
  strategy.playFrom store strategy.arena.initial opponent

/-- The strategy on one line, functions by their sizes. -/
def text (strategy : Strategy) (manager : Manager) : String :=
  let function (v : Var) (edge : Edge) : String :=
    let name := Text.quote ((manager.registry.name? v).getD "")
    s!"({name}, {manager.store.diagramSize edge})"
  Text.record "Transducer"
    [("starting", strategy.starting.detail), ("protagonist", strategy.protagonist.detail),
      ("output_function",
        Text.bracketed (strategy.functions.toList.map fun (v, edge) => function v edge))]

end Strategy

namespace Game

/-- Fix the variables one after the other: each is made true where some move with the values fixed
before allows it. -/
def extractFrom (moves : Edge) (functions : Std.TreeMap Var Edge) :
    List Var → DiagramM (Std.TreeMap Var Edge)
  | [] => pure functions
  | v :: rest => do
    let possible ← Diagram.quantifyExists moves rest
    let function ← Diagram.restrict possible v true
    let moves ← Diagram.compose moves v function
    extractFrom moves (functions.insert v function) rest

/-- A function for each variable of the protagonist that together choose one of the given moves
wherever there is one. -/
def extract (game : Game) (moves : Edge) : DiagramM (Std.TreeMap Var Edge) := do
  let functions ← extractFrom moves ∅ game.protagonistVars
  Diagram.note .debug fun _ => s!"Extracted strategy over {functions.size} variables"
  return functions

end Game

end PlanningGame
