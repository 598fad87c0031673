import Std.Data.TreeSet
import PlanningGame.Diagram.Store

/-!
# Nodes and variables below an edge

The positions that can be reached from some edges, with the terminal always among them, and what
follows from them: the variables of a diagram and its size.
-/
namespace PlanningGame.Store

/-- Add a position and all positions below it, within a bound on the depth. -/
def visitWithin (store : Store) : Nat → Nat → Std.TreeSet Nat → Std.TreeSet Nat
  | 0, _, seen => seen
  | depth + 1, index, seen =>
    if seen.contains index then seen
    else
      let node := store.node index
      visitWithin store depth node.high.index
        (visitWithin store depth node.low.index (seen.insert index))

/-- The positions below the given edges, and the terminal. -/
def reachable (store : Store) (roots : List Edge) : Std.TreeSet Nat :=
  roots.foldl (fun seen root => store.visitWithin root.index root.index seen)
    ((∅ : Std.TreeSet Nat).insert 1)

/-- The positions below the given edges in increasing order, without the terminal. -/
def innerPositions (store : Store) (roots : List Edge) : List Nat :=
  (store.reachable roots).toList.filter (· ≠ 1)

/-- The variables that are tested below an edge, in increasing order. -/
def support (store : Store) (edge : Edge) : List Var :=
  (Std.TreeSet.ofList
    ((store.innerPositions [edge]).map fun index => (store.node index).var)).toList

/-- Number of nodes below an edge, the terminal included. -/
def diagramSize (store : Store) (edge : Edge) : Nat :=
  (store.reachable [edge]).size

end PlanningGame.Store
