import PlanningGame.Domain.Basic
import PlanningGame.Automaton.Basic

/-!
# Domains as symbolic automata

The state of the automaton has a bit for each fluent, then the bit `env_err`, which remembers that
the environment once gave a reaction that the chosen action does not have, and, if agent errors are
tracked in the state, the bit `agent_err`, which remembers an illegal choice of the agent. The
agent chooses the code of an action on the outputs `a_0, a_1, …`; the environment answers with the
code of a reaction on the inputs `r_0, r_1, …`. Codes number the names in their order, least
significant bit first.
-/
namespace PlanningGame

/-- When the two parts of a pair are chosen. -/
structure PairPredicates where
  /-- The outputs select the agent's part. -/
  agent : Edge
  /-- The inputs select the reaction. -/
  reaction : Edge
  /-- Both are selected. -/
  both : Edge

/-- Names with the cubes of their codes. -/
structure CodeTable where
  names : List String
  vars : List Var
  cubes : List Edge

namespace CodeTable

/-- The distinct names in order. -/
def sortedNames (names : List String) : List String :=
  (Std.TreeSet.ofList names).toList

/-- Bits needed to number the names. -/
def bits (names : List String) : Nat :=
  Binary.width (names.length - 1)

/-- The code of a number on some variables. -/
def codeCube (vars : List Var) (number : Nat) : DiagramM Edge :=
  Manager.assignmentCube vars (Binary.encode number vars.length)

/-- The cube of every name. -/
def create (names : List String) (vars : List Var) : DiagramM CodeTable := do
  return ⟨names, vars, ← (List.range names.length).mapM (codeCube vars)⟩

/-- The cube of a name. -/
def cube (table : CodeTable) (name : String) : Edge :=
  ((table.names.zip table.cubes).lookup name).getD .zero

end CodeTable

/-- What the players can select. -/
structure Selection where
  agents : CodeTable
  reactions : CodeTable
  predicates : List PairPredicates
  /-- The outputs are the code of an action. -/
  agentMutex : Edge
  /-- The inputs are the code of a reaction. -/
  envMutex : Edge

/-- A domain with its automaton and the diagrams it was built from. -/
structure Encoding where
  domain : Domain
  automaton : Automaton
  /-- The states that play may use: invariants, and no illegal choice of the agent. -/
  invariant : Edge
  /-- The outputs are the code of an action. -/
  agentMutex : Edge
  /-- The inputs are the code of a reaction. -/
  envMutex : Edge
  /-- The selected action is applicable. -/
  agentPrecondition : Edge
  /-- The selected reaction answers the selected action. -/
  envPrecondition : Edge
  /-- The predicates of each pair, in the order of the names. -/
  predicates : List (String × PairPredicates)
  agentNames : List String
  reactionNames : List String
  outputs : List Var
  inputs : List Var
  mode : AgentErrorMode

namespace Encoding

/-- The name of the bit that remembers an illegal reaction. -/
def envErrorName : String := "env_err"

/-- The name of the bit that remembers an illegal choice of the agent. -/
def agentErrorName : String := "agent_err"

/-- The names of the state bits. -/
def stateNames (domain : Domain) (mode : AgentErrorMode) : List String :=
  domain.fluents ++ [envErrorName] ++
    match mode with
    | .invariant => []
    | .errorBit => [agentErrorName]

/-- The numbered names of code variables. -/
def codeNames (letter : String) (count : Nat) : List String :=
  (List.range count).map fun i => s!"{letter}_{i}"

/-- A state bit as a literal. -/
def stateLiteral (id : BlockId) (value : Bool) (place : Nat) : ManagerM Int := do
  match (← Manager.block id).vars[place]? with
  | some v => return Manager.signedLiteral v value
  | none => Manager.reject .outOfBounds

/-- The cube that makes the first fluents true and the second false. -/
def fluentCube (id : BlockId) (holding failing : FluentSet) : ManagerM Edge := do
  let positive ← holding.toList.mapM (stateLiteral id true)
  let negative ← failing.toList.mapM (stateLiteral id false)
  Diagram.cube (positive ++ negative)

/-- The predicates of a pair. -/
def pairPredicates (agents reactions : CodeTable) (action : Action) : DiagramM PairPredicates := do
  let agent := agents.cube action.agent
  let reaction := reactions.cube action.reaction
  return ⟨agent, reaction, ← Diagram.conj agent reaction⟩

/-- The predicates of each pair, in turn. -/
def allPredicates (agents reactions : CodeTable) (actions : List Action) :
    DiagramM (List PairPredicates) :=
  actions.mapM (pairPredicates agents reactions)

/-- The codes of all names, and what is selected by them. -/
def selection (actions : List Action) (agentNames reactionNames : List String)
    (outputs inputs : List Var) : DiagramM Selection := do
  let agents ← CodeTable.create agentNames outputs
  let reactions ← CodeTable.create reactionNames inputs
  let predicates ← allPredicates agents reactions actions
  let agentMutex ← Diagram.disjAll agents.cubes
  let envMutex ← Diagram.disjAll reactions.cubes
  return ⟨agents, reactions, predicates, agentMutex, envMutex⟩

/-- Some pair with a given property is selected. -/
def someSelected (pairs : List (Action × PairPredicates)) (wanted : Action → Bool) :
    DiagramM Edge :=
  Diagram.disjAll ((pairs.filter fun (action, _) => wanted action).map fun (_, pair) => pair.both)

/-- The next value of a fluent: it is added, or it holds and is not deleted. -/
def nextFluent (id : BlockId) (pairs : List (Action × PairPredicates)) (fluent : Nat) :
    ManagerM Edge := do
  let added ← someSelected pairs (·.adds.contains fluent)
  let deleted ← someSelected pairs (·.deletes.contains fluent)
  let kept ← Diagram.conj (← Manager.stateBit id fluent) (-deleted)
  Diagram.disj kept added

/-- For each reaction, the outputs that select an action which it answers. -/
def legalAgents (legal : Std.TreeMap String Edge) :
    List (Action × PairPredicates) → DiagramM (Std.TreeMap String Edge)
  | [] => pure legal
  | (action, pair) :: rest => do
    let agents ← Diagram.disj (legal.getD action.reaction .zero) pair.agent
    legalAgents (legal.insert action.reaction agents) rest

/-- The selected reaction answers the selected action. -/
def reactionLegal (reactions : CodeTable) (pairs : List (Action × PairPredicates)) :
    DiagramM Edge := do
  let legal ← legalAgents ∅ pairs
  let answers ← legal.toList.mapM fun (reaction, agents) =>
    Diagram.imply (reactions.cube reaction) agents
  Diagram.conjAll answers

/-- The selected action is applicable. Of several pairs with one action, the conditions of the
first count; actions in `seen` have been met before. -/
def applicable (id : BlockId) (agents : CodeTable) (seen : List String) (edge : Edge) :
    List Action → ManagerM Edge
  | [] => pure edge
  | action :: rest => do
    if action.agent ∈ seen then applicable id agents seen edge rest
    else
      let conditions ← fluentCube id action.required action.forbidden
      let edge ← Diagram.conj edge (← Diagram.imply (agents.cube action.agent) conditions)
      applicable id agents (action.agent :: seen) edge rest

/-- If a fluent holds, then the given others do not hold and the given others do. -/
def excludes (id : BlockId) (edge : Edge) (fluent : Nat) (failing holding : List Nat) :
    ManagerM Edge := do
  let negative ← failing.mapM fun place => return -(← Manager.stateBit id place)
  let positive ← holding.mapM (Manager.stateBit id)
  let others ← Diagram.conjAll (negative ++ positive)
  Diagram.conj edge (← Diagram.imply (← Manager.stateBit id fluent) others)

/-- The condition of an invariant. A positive fluent excludes the other positive ones and needs
the negative ones; a negative fluent excludes the positive ones and needs the other negative
ones. -/
def invariantEdge (id : BlockId) (invariant : Invariant) : ManagerM Edge := do
  let positive := invariant.positive.toList
  let negative := invariant.negative.toList
  let edge ← positive.foldlM (fun edge fluent =>
    excludes id edge fluent (positive.filter (· ≠ fluent)) negative) .one
  negative.foldlM (fun edge fluent =>
    excludes id edge fluent positive (negative.filter (· ≠ fluent))) edge

/-- States without an illegal choice of the agent. Without an error bit, the choice itself must be
legal, except in the initial state. -/
def safety (domain : Domain) (mode : AgentErrorMode) (automaton : Automaton) (agentOk : Edge) :
    ManagerM Edge := do
  match mode with
  | .invariant => Diagram.disj agentOk (← automaton.initialCube)
  | .errorBit => return -(← Manager.stateBit automaton.block (domain.fluents.length + 1))

/-- The next value of the bit `env_err`: it is set, or the reaction is illegal. -/
def nextEnvError (id : BlockId) (place : Nat) (envMutex envPrecondition : Edge) :
    ManagerM Edge := do
  let envError ← Manager.stateBit id place
  let envViolation ← Diagram.disj (-envMutex) (-envPrecondition)
  Diagram.disj envError envViolation

/-- The next value of the bit `agent_err`, if there is one: it is set, or the choice is illegal. -/
def nextAgentError (id : BlockId) (place : Nat) (agentOk : Edge) :
    AgentErrorMode → ManagerM (List Edge)
  | .invariant => pure []
  | .errorBit => do
    let agentError ← Manager.stateBit id place
    return [← Diagram.disj agentError (-agentOk)]

/-- The states that play may use. -/
def playable (domain : Domain) (mode : AgentErrorMode) (automaton : Automaton) (agentOk : Edge) :
    ManagerM Edge := do
  let invariants ← domain.invariants.mapM (invariantEdge automaton.block)
  let invariants ← Diagram.conjAll invariants
  let safety ← safety domain mode automaton agentOk
  Diagram.conj invariants safety

/-- The names that are numbered on the outputs. -/
def agentNamesOf (domain : Domain) : List String :=
  CodeTable.sortedNames (domain.actionList.map (·.agent))

/-- The names that are numbered on the inputs. -/
def reactionNamesOf (domain : Domain) : List String :=
  CodeTable.sortedNames (domain.actionList.map (·.reaction))

/-- Encode a domain over given variables. -/
def encode (domain : Domain) (mode : AgentErrorMode) (id : BlockId) (outputs inputs : List Var) :
    ManagerM Encoding := do
  let count := domain.fluents.length
  let actions := domain.actionList
  let bits := (stateNames domain mode).length
  let selection ← selection actions (agentNamesOf domain) (reactionNamesOf domain) outputs inputs
  let pairs := actions.zip selection.predicates
  let fluents ← (List.range count).mapM (nextFluent id pairs)
  let envPrecondition ← reactionLegal selection.reactions pairs
  let agentPrecondition ← applicable id selection.agents [] .one actions
  let envError ← nextEnvError id count selection.envMutex envPrecondition
  let agentOk ← Diagram.conj agentPrecondition selection.agentMutex
  let agentError ← nextAgentError id (count + 1) agentOk mode
  let finals ← fluentCube id domain.goal domain.goalForbidden
  let initial := domain.initial ++ List.replicate (bits - count) false
  let automaton ← Automaton.create id initial (fluents ++ [envError] ++ agentError) finals
  let automaton := { automaton with inputs, outputs }
  let invariant ← playable domain mode automaton agentOk
  Manager.note .info fun _ =>
    s!"Compiled domain: {count} fluents, {actions.length} action-reaction pairs, " ++
      s!"{bits} state bits, {outputs.length} output bits, {inputs.length} input bits"
  return {
    domain, automaton, invariant, agentPrecondition, envPrecondition
    agentMutex := selection.agentMutex
    envMutex := selection.envMutex
    predicates := (actions.map (·.name)).zip selection.predicates
    agentNames := agentNamesOf domain
    reactionNames := reactionNamesOf domain
    outputs, inputs, mode }

/-- Encode a domain over new state variables. -/
def ofDomain (domain : Domain) (mode : AgentErrorMode) : ManagerM Encoding := do
  let agentNames := agentNamesOf domain
  let reactionNames := reactionNamesOf domain
  let id ← Manager.newNamedStateVars (stateNames domain mode)
  let outputs ← Manager.claimVars .output (codeNames "a" (CodeTable.bits agentNames))
  let inputs ← Manager.claimVars .input (codeNames "r" (CodeTable.bits reactionNames))
  Manager.note .debug fun _ =>
    s!"Encoding {agentNames.length} agent actions on {outputs.length} bits and " ++
      s!"{reactionNames.length} reactions on {inputs.length} bits"
  encode domain mode id outputs inputs

/-- The place of the bit `env_err` in a state. -/
def envErrorBit (encoding : Encoding) : Nat :=
  encoding.domain.fluents.length

/-- The place of the bit `agent_err` in a state, if there is one. -/
def agentErrorBit? (encoding : Encoding) : Option Nat :=
  match encoding.mode with
  | .invariant => none
  | .errorBit => some (encoding.domain.fluents.length + 1)

/-- The value of the bit `env_err`. -/
def envError (encoding : Encoding) : ManagerM Edge :=
  Manager.stateBit encoding.automaton.block encoding.envErrorBit

/-- The value of the bit `agent_err`, which is false if there is none. -/
def agentError (encoding : Encoding) : ManagerM Edge :=
  match encoding.agentErrorBit? with
  | some place => Manager.stateBit encoding.automaton.block place
  | none => pure .zero

/-- The number of an agent action. -/
def actionId? (encoding : Encoding) (name : String) : Option Nat :=
  encoding.agentNames.idxOf? name

/-- The number of a reaction. -/
def reactionId? (encoding : Encoding) (name : String) : Option Nat :=
  encoding.reactionNames.idxOf? name

/-- The agent action with a given number. -/
def actionName? (encoding : Encoding) (id : Nat) : Option String :=
  encoding.agentNames[id]?

/-- The reaction with a given number. -/
def reactionName? (encoding : Encoding) (id : Nat) : Option String :=
  encoding.reactionNames[id]?

end Encoding

end PlanningGame
