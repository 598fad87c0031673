import PlanningGame.Diagram.Store

/-!
# Listings

A diagram written down without the positions of its nodes: its nodes are numbered from one in the
order in which a walk meets them, low edges before high edges. Two diagrams with the same listing
have the same shape.
-/
namespace PlanningGame

namespace Store

/-- The positions met so far, latest first, and those below a position that are new, within a bound
on the depth. -/
def preorderWithin (store : Store) : Nat → Nat → List Nat → List Nat
  | 0, _, met => met
  | depth + 1, index, met =>
    if index = 1 ∨ index ∈ met then met
    else
      let node := store.node index
      preorderWithin store depth node.high.index
        (preorderWithin store depth node.low.index (index :: met))

/-- The positions below an edge in the order of their numbers, without the terminal. -/
def preorder (store : Store) (edge : Edge) : List Nat :=
  (store.preorderWithin edge.index edge.index []).reverse

end Store

/-- An edge in a listing: a constant, or the number of its node, after a tilde if it is marked. -/
def Edge.listed (edge : Edge) (order : List Nat) : String :=
  if edge = .one then "T"
  else if edge = .zero then "F"
  else (if edge.negated then "~" else "") ++ toString (order.idxOf edge.index + 1)

end PlanningGame
