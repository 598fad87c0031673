/-!
# Roles of variables

Every variable of a game stands for one thing: a bit of the state, or a bit that somebody chooses
or reads.
-/
namespace PlanningGame

/-- A Boolean variable. Variables are numbered from one, and smaller numbers are tested first. -/
abbrev Var := UInt32

/-- Number of a block of state variables, in order of registration. -/
structure BlockId where
  index : Nat
  deriving DecidableEq, Repr

/-- Blocks are written with a hash sign. -/
def BlockId.text (block : BlockId) : String :=
  "#" ++ toString block.index

/-- A block as a field of a record. -/
def BlockId.detail (block : BlockId) : String :=
  s!"AutomatonId({block.index})"

/-- What a variable stands for. -/
inductive Role
  /-- A bit of the state of a block. -/
  | state (block : BlockId)
  /-- A bit of the environment's choice. -/
  | input
  /-- A bit of the agent's choice. -/
  | output
  /-- A letter that an auxiliary automaton reads. -/
  | alphabet
  deriving DecidableEq, Repr

/-- Whether variables of this role are found by name. State variables are not: each block has
names of its own. -/
def Role.isShared : Role → Bool
  | .state _ => false
  | _ => true

/-- The role without its block, as messages name it. -/
def Role.kind : Role → String
  | .state _ => "state"
  | .input => "input"
  | .output => "output"
  | .alphabet => "alphabet"

/-- The role, with the block of a state variable. -/
def Role.text : Role → String
  | .state block => "state " ++ block.text
  | role => role.kind

end PlanningGame
