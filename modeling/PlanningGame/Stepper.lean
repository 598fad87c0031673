import PlanningGame.Binary
import PlanningGame.Encoding
import PlanningGame.Game.Strategy

/-!
# Stepping through a domain

One action-reaction pair at a time, by numbers, with a report of what happened.
-/
namespace PlanningGame

/-- What one step did. -/
structure StepReport where
  state : List Bool
  action : Nat
  reaction : Nat
  actionName : Option String
  reactionName : Option String
  next : List Bool
  /-- The number is no action, or the action is not applicable in the state. -/
  agentViolation : Bool
  /-- The environment has broken its rules by now. -/
  envError : Bool
  /-- The agent has broken its rules by now, or just now if the state does not track it. -/
  agentError : Bool
  /-- The next state satisfies the goal of the domain. -/
  isFinal : Bool
  /-- The fluents that hold in the state. -/
  before : String
  /-- The fluents that hold in the next state. -/
  after : String

namespace StepReport

/-- The words for a condition. -/
def yesNo (holds : Bool) : String :=
  if holds then "yes" else "no"

/-- The report as text, a line for each part. -/
def text (report : StepReport) : String :=
  let name (known : Option String) : String := known.getD "<undefined>"
  s!"State: {report.before} ({Binary.text report.state})\n"
    ++ s!"Action {report.action}: {name report.actionName}\n"
    ++ s!"Reaction {report.reaction}: {name report.reactionName}\n"
    ++ s!"Next state: {report.after} ({Binary.text report.next})\n"
    ++ s!"Agent error: {yesNo report.agentError}\n"
    ++ s!"Environment error: {yesNo report.envError}\n"
    ++ s!"Final: {yesNo report.isFinal}"

end StepReport

/-- A domain, and an arena whose first state bits are those of the domain. -/
structure Stepper where
  encoding : Encoding
  arena : Automaton

namespace Stepper

/-- Bits of the largest number that can be chosen. -/
def maxBits : Nat := 64

/-- The bits of a chosen number. The number must fit, unless there are bits for all numbers. -/
def choiceBits (choice : Choice) (id : Nat) (vars : List Var) : Except Error (List Bool) :=
  if vars.length < maxBits ∧ Binary.codes vars.length ≤ id then
    .error (.idOutOfRange choice id vars.length)
  else .ok (Binary.encode id vars.length)

/-- Apply an action and a reaction to a state. A number that fits but stands for no name is
applied like any other. -/
def step (stepper : Stepper) (state : List Bool) (action reaction : Nat) :
    ManagerM StepReport := do
  let encoding := stepper.encoding
  let actionBits ← Manager.ofExcept (choiceBits .action action encoding.outputs)
  let reactionBits ← Manager.ofExcept (choiceBits .reaction reaction encoding.inputs)
  let letters := (Valuation.assign (fun _ => false) encoding.outputs actionBits).assign
    encoding.inputs reactionBits
  let next ← Manager.ofExcept (stepper.arena.step (← Manager.diagrams) state letters)
  let agentOk ← Diagram.conj encoding.agentPrecondition encoding.agentMutex
  let store ← Manager.diagrams
  let agentViolation := !store.eval agentOk (stepper.arena.valuation state letters)
  let agentError ← match encoding.agentErrorBit? with
    | none => pure agentViolation
    | some place =>
      match next[place]? with
      | some bit => pure bit
      | none => Manager.reject .outOfBounds
  match next[encoding.envErrorBit]? with
  | none => Manager.reject .outOfBounds
  | some envError =>
    Manager.note .debug fun _ => s!"Step {action} x {reaction} from {Binary.text state}"
    return {
      state, action, reaction, next, agentViolation, envError, agentError
      actionName := encoding.actionName? action
      reactionName := encoding.reactionName? reaction
      isFinal := stepper.arena.satisfies store encoding.automaton.finals next
      before := encoding.domain.describe state
      after := encoding.domain.describe next }

/-- Apply the action that a strategy chooses, and a reaction. A strategy of the second player sees
the reaction first. -/
def strategyStep (stepper : Stepper) (strategy : Strategy) (state : List Bool) (reaction : Nat) :
    ManagerM StepReport := do
  let inputs := stepper.encoding.inputs
  let observed ← match strategy.starting with
    | .environment => do
      let bits ← Manager.ofExcept (choiceBits .reaction reaction inputs)
      pure (Valuation.assign (fun _ => false) inputs bits)
    | .agent => pure fun _ => false
  let action ← Manager.ofExcept (strategy.choice (← Manager.diagrams) state observed)
  stepper.step state action reaction

end Stepper

end PlanningGame
