import Std.Data.TreeMap
import PlanningGame.Binary
import PlanningGame.Names
import PlanningGame.Domain.Action

/-!
# Planning domains

A domain is a list of fluents with their initial values, a set of action-reaction pairs, a goal
and invariants. A domain is built from parts that are checked first; the first fault in a fixed
order is the one that is reported.
-/
namespace PlanningGame

/-- At most one positive fluent holds, and if one does, every negative fluent holds. -/
structure Invariant where
  positive : FluentSet := ∅
  negative : FluentSet := ∅

/-- The parts of a domain, before they are checked. -/
structure DomainParts where
  fluents : List String := []
  initial : List Bool := []
  actions : List Action := []
  /-- Fluents that must hold in the goal. -/
  goal : FluentSet := ∅
  /-- Fluents that must not hold in the goal. -/
  goalForbidden : FluentSet := ∅
  invariants : List Invariant := []

namespace DomainParts

/-- Add a fluent with its initial value. -/
def fluent (parts : DomainParts) (name : String) (initial : Bool) : DomainParts :=
  { parts with fluents := parts.fluents ++ [name], initial := parts.initial ++ [initial] }

/-- Add a pair. -/
def action (parts : DomainParts) (action : Action) : DomainParts :=
  { parts with actions := parts.actions ++ [action] }

/-- Ask for a value of a fluent in the goal. -/
def require (parts : DomainParts) (fluent : Nat) (value : Bool) : DomainParts :=
  if value then { parts with goal := parts.goal.insert fluent }
  else { parts with goalForbidden := parts.goalForbidden.insert fluent }

/-- Add an invariant. -/
def invariant (parts : DomainParts) (invariant : Invariant) : DomainParts :=
  { parts with invariants := parts.invariants ++ [invariant] }

/-- The parts added one by one. -/
def assemble (fluents : List (String × Bool)) (actions : List Action)
    (goal goalForbidden : FluentSet) (invariants : List Invariant) : DomainParts :=
  let parts : DomainParts := fluents.foldl (fun parts (name, value) => parts.fluent name value) {}
  let parts := actions.foldl DomainParts.action parts
  let parts := goal.toList.foldl (fun parts fluent => parts.require fluent true) parts
  let parts := goalForbidden.toList.foldl (fun parts fluent => parts.require fluent false) parts
  invariants.foldl DomainParts.invariant parts

/-- Every fluent the parts refer to, in the order in which they are checked. -/
def mentions (parts : DomainParts) : List (Mention × Nat) :=
  (parts.goal.toList ++ parts.goalForbidden.toList).map (Mention.goal, ·)
    ++ parts.invariants.flatMap (fun invariant =>
      (invariant.positive.toList ++ invariant.negative.toList).map (Mention.invariant, ·))
    ++ parts.actions.flatMap Action.mentions

end DomainParts

/-- A checked domain. -/
structure Domain where
  fluents : List String
  initial : List Bool
  /-- The pairs by name. -/
  actions : Std.TreeMap String Action
  goal : FluentSet
  goalForbidden : FluentSet
  invariants : List Invariant

namespace Domain

/-- The pairs by name. Of several with one name the first is kept. -/
def actionsByName (actions : List Action) : Std.TreeMap String Action :=
  actions.foldl (fun byName action => byName.insertIfNew action.name action) ∅

/-- Check the parts and put a domain together. -/
def ofParts (parts : DomainParts) : Except Error Domain :=
  let count := parts.fluents.length
  if parts.initial.length ≠ count then
    .error (.initialStateLength count parts.initial.length)
  else
    match firstRepeat parts.fluents with
    | some name => .error (.duplicateVariable name)
    | none =>
      match parts.mentions.find? (fun (_, index) => count ≤ index) with
      | some (mention, index) => .error (.indexOutOfRange mention index count)
      | none =>
        if parts.actions.isEmpty then .error .noActions
        else .ok
          { fluents := parts.fluents
            initial := parts.initial
            actions := actionsByName parts.actions
            goal := parts.goal
            goalForbidden := parts.goalForbidden
            invariants := parts.invariants }

/-- The pairs in the order of their names. -/
def actionList (domain : Domain) : List Action :=
  domain.actions.values

/-- The pair with a given name. -/
def action? (domain : Domain) (name : String) : Option Action :=
  domain.actions[name]?

/-- The number of the fluent with a given name. -/
def fluentIndex? (domain : Domain) (name : String) : Option Nat :=
  domain.fluents.idxOf? name

/-- Whether the listed fluents all have a value. Reading ends at the first that does not. -/
def allHave (state : List Bool) (value : Bool) : List Nat → Except Failure Bool
  | [] => .ok true
  | index :: rest =>
    match state[index]? with
    | none => .error (.breach .outOfBounds)
    | some actual => if actual = value then allHave state value rest else .ok false

/-- Whether a state satisfies the goal. -/
def isGoal (domain : Domain) (state : List Bool) : Except Failure Bool := do
  if ← allHave state true domain.goal.toList then
    allHave state false domain.goalForbidden.toList
  else return false

/-- The names of the fluents that hold, between braces. -/
def describe (domain : Domain) (state : List Bool) : String :=
  Text.braced ((domain.fluents.zip state).filterMap fun (name, holds) =>
    if holds then some name else none)

/-- The conditions of the goal, as names and negated names. -/
def goalText (domain : Domain) : String :=
  let name (index : Nat) : String := domain.fluents[index]?.getD ""
  Text.braced (domain.goal.toList.map name
    ++ domain.goalForbidden.toList.map fun index => "!" ++ name index)

/-- The whole domain as text. -/
def text (domain : Domain) : String :=
  "Domain variables:\n"
    ++ String.join (domain.fluents.zipIdx.map fun (name, i) => s!"  {i}: {name}\n")
    ++ s!"Initial state: {Binary.text domain.initial}\n"
    ++ s!"Goal: {domain.goalText}\n"
    ++ s!"Number of action-reaction pairs: {domain.actions.size}\n"
    ++ String.join (domain.actionList.map fun action => action.text ++ "\n")
    ++ s!"Number of invariants: {domain.invariants.length}\n"
    ++ String.join (domain.invariants.map fun invariant =>
      s!"  +{FluentSet.text invariant.positive} -{FluentSet.text invariant.negative}\n")

end Domain

end PlanningGame
