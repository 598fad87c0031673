import PlanningGame.Manager
import PlanningGame.Diagram.Ite

/-!
# Symbolic automata

A deterministic automaton whose states are the valuations of a block of state variables. Each
state variable has a diagram for its next value, over the current state and the letters: input,
output and alphabet variables. A diagram over the state says which states are final.

An automaton also records whose variables are whose. A manager may hold variables of other
automata, so games never take them from the manager.
-/
namespace PlanningGame

/-- State variables with their next values, and the final states. -/
structure Automaton where
  block : BlockId
  /-- The state variables, in bit order. -/
  stateVars : List Var
  initial : List Bool
  /-- The next value of each state variable. -/
  next : List Edge
  finals : Edge
  /-- Variables of the environment, least significant bit first. -/
  inputs : List Var := []
  /-- Variables of the agent, least significant bit first. -/
  outputs : List Var := []

namespace Automaton

/-- An automaton over a block. It needs one initial value and one next value for each state
variable. -/
def create (id : BlockId) (initial : List Bool) (next : List Edge) (finals : Edge) :
    ManagerM Automaton := do
  let vars := (← Manager.block id).vars
  if initial.length = vars.length ∧ next.length = vars.length then
    return { block := id, stateVars := vars, initial, next, finals }
  else Manager.refuse (.arityMismatch vars.length initial.length next.length)

/-- The cube of the initial state. -/
def initialCube (automaton : Automaton) : ManagerM Edge :=
  Manager.stateCube automaton.block automaton.initial

/-- The next value of each state variable, as replacements. -/
def nextValues (automaton : Automaton) : Substitution :=
  Std.TreeMap.ofList (automaton.stateVars.zip automaton.next)

/-- A state together with values of the other variables. The state goes first. -/
def valuation (automaton : Automaton) (state : List Bool) (letters : Valuation) : Valuation :=
  letters.assign automaton.stateVars state

/-- Whether a state satisfies a diagram when all other variables are false. -/
def satisfies (automaton : Automaton) (store : Store) (edge : Edge) (state : List Bool) : Bool :=
  store.eval edge (automaton.valuation state fun _ => false)

/-- The next state under the given letters. -/
def step (automaton : Automaton) (store : Store) (state : List Bool) (letters : Valuation) :
    Except Error (List Bool) :=
  if state.length = automaton.initial.length then
    .ok (automaton.next.map fun edge => store.eval edge (automaton.valuation state letters))
  else .error (.stateLength automaton.initial.length state.length)

/-- The states after each letter of a word. -/
def run (automaton : Automaton) (store : Store) (state : List Bool) :
    List Valuation → Except Error (List (List Bool))
  | [] => .ok []
  | letters :: rest => do
    let state ← automaton.step store state letters
    return state :: (← automaton.run store state rest)

/-- The distinct variables of a list, each where it occurs first. -/
def distinctAfter (seen : List Var) : List Var → List Var
  | [] => []
  | v :: rest => if v ∈ seen then distinctAfter seen rest else v :: distinctAfter (v :: seen) rest

/-- All automata side by side, reading the same letters. The product accepts when every part
does. -/
def product (automata : List Automaton) : ManagerM Automaton := do
  if automata.isEmpty then Manager.refuse (.malformedAutomaton .emptyProduct)
  let ids := automata.map (·.block)
  let id ← Manager.newProductBlock ids
  Manager.note .debug fun _ =>
    s!"Product of {Text.bracketed (ids.map BlockId.detail)} is {id.text}"
  let finals ← Diagram.conjAll (automata.map (·.finals))
  let product ← create id (automata.flatMap (·.initial)) (automata.flatMap (·.next)) finals
  return { product with
    inputs := distinctAfter [] (automata.flatMap (·.inputs))
    outputs := distinctAfter [] (automata.flatMap (·.outputs)) }

/-- The parts of an automaton on one line, diagrams by their sizes. -/
def text (automaton : Automaton) (store : Store) : String :=
  let numbers (vars : List Var) := Text.bracketed (vars.map fun v => toString v.toNat)
  Text.record "SymbolicAutomaton"
    [("id", automaton.block.detail),
      ("initial", Text.bracketed (automaton.initial.map toString)),
      ("transition_sizes",
        Text.bracketed (automaton.next.map fun edge => toString (store.diagramSize edge))),
      ("finals_size", toString (store.diagramSize automaton.finals)),
      ("inputs", numbers automaton.inputs),
      ("outputs", numbers automaton.outputs)]

end Automaton

end PlanningGame
