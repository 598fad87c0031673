import Std.Data.TreeSet
import PlanningGame.Failure
import PlanningGame.Text.Quoted

/-!
# Actions with reactions

A pair consists of what the agent chooses and how the environment answers. Its conditions and
effects are sets of fluents, by number. An encoded name holds both parts: the reaction starts at
the first marker.
-/
namespace PlanningGame

/-- Fluents by number, in increasing order. -/
abbrev FluentSet := Std.TreeSet Nat

/-- The numbers between braces. -/
def FluentSet.text (fluents : FluentSet) : String :=
  Text.braced (fluents.toList.map toString)

/-- What the agent does and how the environment answers. -/
structure Action where
  name : String
  agent : String
  reaction : String
  /-- Fluents that must hold. -/
  required : FluentSet := ∅
  /-- Fluents that must not hold. -/
  forbidden : FluentSet := ∅
  /-- Fluents that hold afterwards. -/
  adds : FluentSet := ∅
  /-- Fluents that do not hold afterwards, unless they are added. -/
  deletes : FluentSet := ∅

namespace Action

/-- Where the reaction starts in an encoded name. -/
def marker : String := "_REACT"

/-- The reaction of a name without a marker. -/
def defaultReaction : String := "_REACT_0"

/-- A pair without conditions and effects, named by both parts. -/
def ofParts (agent reaction : String) : Action :=
  { name := agent ++ reaction, agent, reaction }

/-- The text before the first occurrence of a word, and the text from there on. -/
def splitAtWord (word : List Char) : List Char → Option (List Char × List Char)
  | [] => if word.isEmpty then some ([], []) else none
  | c :: rest =>
    if word.isPrefixOf (c :: rest) then some ([], c :: rest)
    else (splitAtWord word rest).map fun (before, after) => (c :: before, after)

/-- The pair of an encoded name. -/
def ofEncodedName (name : String) : Action :=
  match splitAtWord marker.toList name.toList with
  | some (agent, reaction) => ofParts (String.ofList agent) (String.ofList reaction)
  | none => ofParts name defaultReaction

/-- Every fluent the pair refers to, in the order in which they are checked. -/
def mentions (action : Action) : List (Mention × Nat) :=
  action.required.toList.map (Mention.precondition action.name, ·)
    ++ action.forbidden.toList.map (Mention.precondition action.name, ·)
    ++ action.adds.toList.map (Mention.addEffect action.name, ·)
    ++ action.deletes.toList.map (Mention.deleteEffect action.name, ·)

/-- The pair with its conditions and effects, a line for each. -/
def text (action : Action) : String :=
  s!"Action: {action.name} (agent: {action.agent}, reaction: {action.reaction})\n"
    ++ s!"  pre+: {FluentSet.text action.required}\n"
    ++ s!"  pre-: {FluentSet.text action.forbidden}\n"
    ++ s!"  add:  {FluentSet.text action.adds}\n"
    ++ s!"  del:  {FluentSet.text action.deletes}"

end Action

end PlanningGame
