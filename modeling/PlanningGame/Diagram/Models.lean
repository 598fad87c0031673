import Std.Data.HashMap
import PlanningGame.Binary
import PlanningGame.Diagram.Store

/-!
# Models of a diagram

One satisfying path, as signed literals, and the number of satisfying valuations.
-/
namespace PlanningGame.Store

/-- A variable as a positive literal, in 32 bits with sign. -/
def signed (v : Var) : Int :=
  Int.bmod v.toNat 0x100000000

/-- The least number of 32 bits with sign. It has no negation among them. -/
def leastSigned : Int := -0x80000000

/-- The literal that makes a variable true or false. -/
def pathLiteral (v : Var) (value : Bool) : Except Failure Int :=
  if value then .ok (signed v)
  else if signed v = leastSigned then .error (.breach .literalRange)
  else .ok (-signed v)

/-- Follow high edges as long as they are satisfiable, for at most `depth` steps. -/
def pathWithin (store : Store) : Nat → Edge → Except Failure (List Int)
  | 0, _ => .ok []
  | depth + 1, edge =>
    if edge = .one then .ok []
    else do
      let value : Bool := store.high edge ≠ .zero
      let literal ← pathLiteral (store.node edge.index).var value
      let rest ← pathWithin store depth (if value then store.high edge else store.low edge)
      return literal :: rest

/-- The literals on a path to the constant true, if there is one. Variables off the path may have
any value. -/
def satisfyingPath (store : Store) (edge : Edge) : Except Failure (Option (List Int)) :=
  if edge = .zero then .ok none else (store.pathWithin edge.index edge).map some

/-- Half the sum of the counts of both branches, where the constant true counts `full`. Counts of
edges met before are kept. -/
def countWithin (store : Store) (full : Nat) : Nat → Edge → StateM (Std.HashMap Edge Nat) Nat
  | 0, _ => return 0
  | depth + 1, edge => do
    if edge = .zero then return 0
    else if edge = .one then return full
    else
      match (← get)[edge]? with
      | some count => return count
      | none =>
        let low ← countWithin store full depth (store.low edge)
        let high ← countWithin store full depth (store.high edge)
        let count := (low + high) / 2
        modify (·.insert edge count)
        return count

/-- Number of satisfying valuations of `vars` variables, among which are those of the diagram. -/
def modelCount (store : Store) (edge : Edge) (vars : Nat) : Nat :=
  ((store.countWithin (Binary.codes vars) edge.index edge).run ∅).run.1

end PlanningGame.Store
