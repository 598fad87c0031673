import PlanningGame.Failure
import PlanningGame.Names
import PlanningGame.Text.Quoted

/-!
# Registry of variables

A registry numbers variables in order of creation and remembers the name and the role of each.
State variables come in blocks; a block may also be put together from the variables of others.
Input, output and alphabet variables share one space of names.
-/
namespace PlanningGame

/-- Name and role of a variable. -/
structure Declaration where
  name : String
  role : Role
  deriving DecidableEq

/-- State variables of one automaton, in bit order. -/
structure Block where
  vars : List Var
  /-- Names with their places in the block. The first entry of a name counts. -/
  labels : List (String × Nat)

namespace Block

/-- The place of the state variable with a given name. -/
def place? (block : Block) (name : String) : Option Nat :=
  block.labels.lookup name

/-- The variables of one block after those of another. -/
def append (first second : Block) : Block :=
  { vars := first.vars ++ second.vars
    labels := first.labels ++
      second.labels.map fun (name, i) => (name, first.vars.length + i) }

/-- All blocks one after the other. -/
def concat (blocks : List Block) : Block :=
  blocks.foldl append ⟨[], []⟩

end Block

/-- All variables and blocks. -/
structure Registry where
  /-- Variable `v` is declared under `v - 1`. -/
  declarations : Array Declaration := #[]
  blocks : Array Block := #[]

namespace Registry

/-- Number of variables. -/
def size (registry : Registry) : Nat :=
  registry.declarations.size

/-- The declaration of a variable. -/
def declaration? (registry : Registry) (v : Var) : Option Declaration :=
  if v = 0 then none else registry.declarations[v.toNat - 1]?

/-- The name of a variable. -/
def name? (registry : Registry) (v : Var) : Option String :=
  (registry.declaration? v).map (·.name)

/-- The role of a variable. -/
def role? (registry : Registry) (v : Var) : Option Role :=
  (registry.declaration? v).map (·.role)

/-- The variable at a place of the list of declarations. -/
def varAt (place : Nat) : Var :=
  (place + 1).toUInt32

/-- The variables with a given property of the role, in increasing order. -/
def varsWhere (registry : Registry) (wanted : Role → Bool) : List Var :=
  registry.declarations.toList.zipIdx.filterMap fun (declaration, place) =>
    if wanted declaration.role then some (varAt place) else none

/-- The variables of a role. -/
def varsOf (registry : Registry) (role : Role) : List Var :=
  registry.varsWhere (· = role)

/-- The input, output or alphabet variable with a given name, and its role. -/
def shared? (registry : Registry) (name : String) : Option (Var × Role) :=
  registry.declarations.toList.zipIdx.findSome? fun (declaration, place) =>
    if declaration.role.isShared && declaration.name = name then
      some (varAt place, declaration.role)
    else none

/-- The input, output or alphabet variable with a given name. -/
def lookup? (registry : Registry) (name : String) : Option Var :=
  (registry.shared? name).map (·.1)

/-- The block with a given number. -/
def block? (registry : Registry) (id : BlockId) : Option Block :=
  registry.blocks[id.index]?

/-- The number that the next block gets. -/
def nextBlock (registry : Registry) : BlockId :=
  ⟨registry.blocks.size⟩

/-- Declare a variable. -/
def declare (registry : Registry) (name : String) (role : Role) : Var × Registry :=
  (varAt registry.size,
    { registry with declarations := registry.declarations.push ⟨name, role⟩ })

/-- Declare a variable for each name. -/
def declareAll (registry : Registry) (role : Role) : List String → List Var × Registry
  | [] => ([], registry)
  | name :: rest =>
    let (v, registry) := registry.declare name role
    let (vars, registry) := registry.declareAll role rest
    (v :: vars, registry)

/-- Register a block. -/
def addBlock (registry : Registry) (block : Block) : Registry :=
  { registry with blocks := registry.blocks.push block }

/-- A block of new state variables, with the names under which its variables are found. -/
def newBlock (registry : Registry) (names : List String) (labels : List (String × Nat)) :
    BlockId × Registry :=
  let id := registry.nextBlock
  let (vars, registry) := registry.declareAll (.state id) names
  (id, registry.addBlock ⟨vars, labels⟩)

/-- The name of a state variable that nobody named. -/
def anonymousName (id : BlockId) (place : Nat) : String :=
  s!"q{place}{id.text}"

/-- A block of state variables that are found by number only. -/
def newAnonymousBlock (registry : Registry) (count : Nat) : BlockId × Registry :=
  registry.newBlock ((List.range count).map (anonymousName registry.nextBlock)) []

/-- A block of named state variables. The names must differ. -/
def newNamedBlock (registry : Registry) (names : List String) :
    Except Error (BlockId × Registry) :=
  match firstRepeat names with
  | some name => .error (.duplicateVariable name)
  | none => .ok (registry.newBlock names names.zipIdx)

/-- The blocks with the given numbers. -/
def findBlocks? (registry : Registry) (ids : List BlockId) : Option (List Block) :=
  ids.mapM registry.block?

/-- The variable with a name and a role, which is declared if the name is new. A name of another
role is refused. -/
def claim (registry : Registry) (role : Role) (name : String) : Except Error (Var × Registry) :=
  match registry.shared? name with
  | none => .ok (registry.declare name role)
  | some (v, existing) =>
    if existing = role then .ok (v, registry) else .error (.roleConflict name existing role)

/-- The variables with the given names and a role. The first refusal ends the list; what was
declared before it stays. -/
def claimAll (registry : Registry) (role : Role) :
    List String → Except Error (List Var) × Registry
  | [] => (.ok [], registry)
  | name :: rest =>
    match registry.claim role name with
    | .error error => (.error error, registry)
    | .ok (v, registry) =>
      match registry.claimAll role rest with
      | (.ok vars, registry) => (.ok (v :: vars), registry)
      | (.error error, registry) => (.error error, registry)

/-- The names of some variables, in quotation. -/
def quotedNames (registry : Registry) (vars : List Var) : String :=
  Text.quotedList (vars.filterMap registry.name?)

/-- The variables by role, and the state variables by block, a line for each. -/
def text (registry : Registry) : String :=
  let roles := [("Input", Role.input), ("Output", .output), ("Alphabet", .alphabet)]
  String.join (roles.map fun (title, role) =>
      s!"{title} variables: {registry.quotedNames (registry.varsOf role)}\n")
    ++ String.join (registry.blocks.toList.zipIdx.map fun (block, i) =>
      s!"State variables of automaton {BlockId.text ⟨i⟩}: {registry.quotedNames block.vars}\n")

end Registry

end PlanningGame
