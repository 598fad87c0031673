import PlanningGame.Role
import PlanningGame.Pairing
import PlanningGame.Diagram.Edge

/-!
# Nodes and triples

A node decides between two edges by one variable. A triple holds the arguments of one if-then-else
operation. Both are keys of the tables of a store, by the words of their parts.
-/
namespace PlanningGame

/-- If `var` then `high` else `low`. -/
structure Node where
  var : Var
  low : Edge
  high : Edge
  deriving DecidableEq

namespace Node

/-- The terminal has no variable and leads to itself. -/
def terminal : Node := ⟨0, .one, .one⟩

/-- The word that chooses a bucket of the node table. -/
def key (node : Node) : UInt64 :=
  Pairing.triple node.var.toUInt64 node.low.word.toUInt64 node.high.word.toUInt64

end Node

/-- Condition, positive branch and negative branch of an if-then-else. -/
structure Triple where
  condition : Edge
  positive : Edge
  negative : Edge
  deriving DecidableEq

namespace Triple

/-- The word that chooses a place of the computed table. -/
def key (triple : Triple) : UInt64 :=
  Pairing.triple triple.condition.word.toUInt64 triple.positive.word.toUInt64
    triple.negative.word.toUInt64

/-- What is left of a triple after the simple cases. -/
inductive Standard
  /-- The operation is settled. -/
  | settled (edge : Edge)
  /-- The operation, negated if the mark is set, is that of a standard triple: condition and
  positive branch carry no mark. -/
  | reduced (triple : Triple) (negated : Bool)

/-- Settle the cases that need no node, and bring all others to standard form. A branch that is
the condition or its negation is a constant there. A marked condition exchanges the branches, and
a marked positive branch negates the whole. -/
def standard (triple : Triple) : Standard :=
  let f := triple.condition
  if f = .one then .settled triple.positive
  else if f = .zero then .settled triple.negative
  else
    let g := if triple.positive = f then .one
      else if triple.positive = -f then .zero else triple.positive
    let h := if triple.negative = f then .zero
      else if triple.negative = -f then .one else triple.negative
    if g = h then .settled g
    else if g = .one ∧ h = .zero then .settled f
    else if g = .zero ∧ h = .one then .settled (-f)
    else
      let triple : Triple := if f.negated then ⟨-f, h, g⟩ else ⟨f, g, h⟩
      if triple.positive.negated then
        .reduced ⟨triple.condition, -triple.positive, -triple.negative⟩ true
      else .reduced triple false

/-- The sum of the three positions. -/
def weight (triple : Triple) : Nat :=
  triple.condition.index + triple.positive.index + triple.negative.index

end Triple

end PlanningGame
