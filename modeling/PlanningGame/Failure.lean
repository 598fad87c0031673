import PlanningGame.Role

/-!
# Failures

An operation fails for one of two reasons. A *refusal* is an answer about the data it was given:
a domain that refers to a missing fluent, a name that already has another role. A *breach* is a
call that its own rules forbid, such as an operation on variable zero. Unrealizability is neither:
it is a result of a game.
-/
namespace PlanningGame

/-- The part of a domain that refers to a fluent. -/
inductive Mention
  | goal
  | invariant
  | precondition (action : String)
  | addEffect (action : String)
  | deleteEffect (action : String)
  deriving DecidableEq, Repr

/-- The words for a mention. -/
def Mention.text : Mention → String
  | .goal => "goal"
  | .invariant => "invariant"
  | .precondition action => s!"precondition of action '{action}'"
  | .addEffect action => s!"add effect of action '{action}'"
  | .deleteEffect action => s!"delete effect of action '{action}'"

/-- Why a transition table or a list of automata describes no automaton. -/
inductive Malformation
  | noStates
  | initialOutOfRange (state : Nat)
  | acceptingOutOfRange (state : Nat)
  | tooManyLetters (count most : Nat)
  | repeatedLetter (name : String)
  | rowLength (state actual expected : Nat)
  | successorOutOfRange (successor state : Nat)
  | emptyProduct
  deriving DecidableEq, Repr

/-- The words for a malformation. -/
def Malformation.text : Malformation → String
  | .noStates => "no states"
  | .initialOutOfRange state => s!"initial state {state} out of range"
  | .acceptingOutOfRange state => s!"accepting state {state} out of range"
  | .tooManyLetters count most =>
    s!"alphabet has {count} letters, at most {most} are supported"
  | .repeatedLetter name => s!"letter '{name}' appears twice in the alphabet"
  | .rowLength state actual expected =>
    s!"state {state} has {actual} successors, expected {expected}"
  | .successorOutOfRange successor state =>
    s!"successor {successor} of state {state} out of range"
  | .emptyProduct => "product of zero automata"

/-- What a number given to the stepper stands for. -/
inductive Choice
  | action
  | reaction
  deriving DecidableEq, Repr

/-- The words for a choice. -/
def Choice.text : Choice → String
  | .action => "action"
  | .reaction => "reaction"

/-- Why given data was refused. -/
inductive Error
  /-- A fluent read by an auxiliary automaton is no state variable of the domain. -/
  | unknownFluent (fluent : String)
  /-- No solving procedure has this name. -/
  | unsupportedAlgorithm (text : String)
  /-- No treatment of agent errors has this name. -/
  | unsupportedAgentErrorMode (text : String)
  /-- The name is taken by a variable of another role. -/
  | roleConflict (name : String) (existing requested : Role)
  | initialStateLength (expected actual : Nat)
  | indexOutOfRange (mention : Mention) (index count : Nat)
  | noActions
  | duplicateVariable (name : String)
  | malformedAutomaton (reason : Malformation)
  | arityMismatch (stateVars initial transitions : Nat)
  | idOutOfRange (choice : Choice) (id bits : Nat)
  | stateLength (expected actual : Nat)
  /-- The iteration did not settle within its bound. -/
  | fixpointDiverged (iterations : Nat)
  deriving DecidableEq, Repr

/-- The name of a refusal. -/
def Error.label : Error → String
  | .unknownFluent .. => "UnknownFluent"
  | .unsupportedAlgorithm .. => "UnsupportedAlgorithm"
  | .unsupportedAgentErrorMode .. => "UnsupportedAgentErrorMode"
  | .roleConflict .. => "RoleConflict"
  | .initialStateLength .. => "InitialStateLength"
  | .indexOutOfRange .. => "IndexOutOfRange"
  | .noActions => "NoActions"
  | .duplicateVariable .. => "DuplicateVariable"
  | .malformedAutomaton .. => "MalformedAutomaton"
  | .arityMismatch .. => "ArityMismatch"
  | .idOutOfRange .. => "IdOutOfRange"
  | .stateLength .. => "StateLength"
  | .fixpointDiverged .. => "FixpointDiverged"

/-- The text shown for a refusal. -/
def Error.message : Error → String
  | .unknownFluent fluent => s!"fluent '{fluent}' is not a state variable of the domain"
  | .unsupportedAlgorithm text =>
    s!"unsupported algorithm '{text}' (expected one of: adversarial, cooperative, best-effort)"
  | .unsupportedAgentErrorMode text =>
    s!"unsupported agent error mode '{text}' (expected one of: invariant, error-bit)"
  | .roleConflict name existing requested =>
    s!"variable '{name}' is already a {existing.kind} variable, cannot register it as {requested.kind}"
  | .initialStateLength expected actual =>
    s!"initial state has {actual} values but the domain has {expected} variables"
  | .indexOutOfRange mention index count =>
    s!"{mention.text} refers to variable index {index}, but the domain has {count} variables"
  | .noActions => "domain has no actions"
  | .duplicateVariable name => s!"variable '{name}' is declared twice"
  | .malformedAutomaton reason => s!"malformed automaton: {reason.text}"
  | .arityMismatch stateVars initial transitions =>
    s!"automaton has {stateVars} state variables, but {initial} initial values and {transitions} transition functions"
  | .idOutOfRange choice id bits => s!"{choice.text} id {id} does not fit in {bits} bits"
  | .stateLength expected actual => s!"state has {actual} values, expected {expected}"
  | .fixpointDiverged iterations => s!"fixpoint did not converge after {iterations} iterations"

/-- A call that the operation's own rules forbid. -/
inductive Breach
  /-- A table was asked for with more than `2 ^ 31` places. -/
  | tableTooLarge
  /-- Variables are numbered from one. -/
  | zeroVariable
  /-- The negation of the least number of 32 bits with sign was asked for. -/
  | literalRange
  /-- Cofactors were asked for below the top variable. -/
  | belowTop
  /-- No node, state bit, automaton or name is at this position. -/
  | outOfBounds
  /-- A state vector does not have one value for each variable of its block. -/
  | vectorLength
  /-- All node positions that an edge can name are in use. -/
  | storeFull
  /-- A recursion went deeper than the positions of its arguments allow. -/
  | exhausted
  deriving DecidableEq, Repr

/-- Why an operation gave no answer. -/
inductive Failure
  | refused (error : Error)
  | breach (breach : Breach)
  deriving DecidableEq, Repr

end PlanningGame
