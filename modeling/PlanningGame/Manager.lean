import PlanningGame.Registry
import PlanningGame.Diagram.Substitution
import PlanningGame.Diagram.Evaluation
import PlanningGame.Diagram.Graphviz

/-!
# Managers

A manager owns a store of diagrams and the registry of its variables. Automata, games and
strategies of one manager share both. Operations on diagrams run in a manager without touching the
registry.
-/
namespace PlanningGame

/-- Diagrams and what their variables stand for. -/
structure Manager where
  store : Store
  registry : Registry := {}

/-- Operations on a manager that may fail. The manager reached by then is kept. -/
abbrev ManagerM := ExceptT Failure (StateM Manager)

/-- An operation on diagrams, run on the store of a manager. -/
def DiagramM.onManager {α : Type} (operation : DiagramM α) : ManagerM α :=
  ExceptT.mk fun ⟨store, registry⟩ =>
    let (result, store) := operation.run.run store
    (result, ⟨store, registry⟩)

instance (priority := low) : MonadLift DiagramM ManagerM := ⟨DiagramM.onManager⟩

namespace Manager

/-- A manager without variables. -/
def create (sizes : TableSizes) (journal : Journal) : Except Failure Manager := do
  return { store := ← Store.create sizes journal }

/-- The registry as it is now. -/
def registered : ManagerM Registry := return (← get).registry

/-- The store as it is now. -/
def diagrams : ManagerM Store := return (← get).store

/-- Replace the registry. -/
def setRegistry (registry : Registry) : ManagerM Unit :=
  modify fun ⟨store, _⟩ => ⟨store, registry⟩

/-- Report what the operation does. -/
def note (level : Level) (message : Unit → String) : ManagerM Unit :=
  Diagram.note level message

/-- Fail because a rule of the operation is broken. -/
def reject {α : Type} (breach : Breach) : ManagerM α :=
  throw (.breach breach)

/-- Fail because the given data is refused. -/
def refuse {α : Type} (error : Error) : ManagerM α :=
  throw (.refused error)

/-- An answer about given data, as an operation. -/
def ofExcept {α : Type} : Except Error α → ManagerM α
  | .ok value => pure value
  | .error error => refuse error

/-- New state variables that are found by number only. -/
def newStateVars (count : Nat) : ManagerM BlockId := do
  let (id, registry) := (← registered).newAnonymousBlock count
  setRegistry registry
  note .debug fun _ => s!"Created automaton {id.text} with {count} state variables"
  return id

/-- New state variables with different names. -/
def newNamedStateVars (names : List String) : ManagerM BlockId := do
  let (id, registry) ← ofExcept ((← registered).newNamedBlock names)
  setRegistry registry
  note .debug fun _ =>
    s!"Created automaton {id.text} with state variables {Text.quotedList names}"
  return id

/-- A block of the variables of other blocks, one after the other. No variable is created. -/
def newProductBlock (ids : List BlockId) : ManagerM BlockId := do
  let registry ← registered
  match registry.findBlocks? ids with
  | none => reject .outOfBounds
  | some blocks =>
    let id := registry.nextBlock
    setRegistry (registry.addBlock (Block.concat blocks))
    note .debug fun _ =>
      s!"Created product state space {id.text} of {Text.bracketed (ids.map BlockId.detail)}"
    return id

/-- The block with a given number. -/
def block (id : BlockId) : ManagerM Block := do
  match (← registered).block? id with
  | some block => return block
  | none => reject .outOfBounds

/-- The variables with the given names and a role. -/
def claimVars (role : Role) (names : List String) : ManagerM (List Var) := do
  let (result, registry) := (← registered).claimAll role names
  setRegistry registry
  ofExcept result

/-- The value of a state variable. -/
def stateBit (id : BlockId) (place : Nat) : ManagerM Edge := do
  match (← block id).vars[place]? with
  | some v => Diagram.literal v
  | none => reject .outOfBounds

/-- The value of the input, output or alphabet variable with a given name. -/
def named? (name : String) : ManagerM (Option Edge) := do
  match (← registered).lookup? name with
  | some v => return some (← Diagram.literal v)
  | none => return none

/-- A variable as a literal that makes it true or false. -/
def signedLiteral (v : Var) (value : Bool) : Int :=
  if value then v.toNat else -v.toNat

/-- The cube that gives the listed variables the listed values. -/
def assignmentCube (vars : List Var) (values : List Bool) : DiagramM Edge :=
  Diagram.cube (List.zipWith signedLiteral vars values)

/-- The cube of one state of a block. -/
def stateCube (id : BlockId) (state : List Bool) : ManagerM Edge := do
  let vars := (← block id).vars
  if vars.length = state.length then assignmentCube vars state else reject .vectorLength

/-- The alphabet variables below an edge, in increasing order. -/
def alphabetSupport (manager : Manager) (edge : Edge) : List Var :=
  (manager.store.support edge).filter fun v => manager.registry.role? v = some .alphabet

/-- The name of a variable in a drawing. -/
def displayName (manager : Manager) (v : Var) : String :=
  (manager.registry.name? v).getD (Store.plainName v)

/-- The drawing of some diagrams, with the names of the variables. -/
def drawing (manager : Manager) (roots : List Edge) : String :=
  manager.store.drawing roots manager.displayName

end Manager

end PlanningGame
