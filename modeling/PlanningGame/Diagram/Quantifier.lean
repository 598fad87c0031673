import PlanningGame.Diagram.Substitution

/-!
# Quantification

Quantified variables are kept in increasing order, and those above the top of a diagram are
dropped on the way down. When the low branch of a quantified variable is already true, the high
branch is not visited.
-/
namespace PlanningGame.Diagram

/-- The distinct variables of a list, in increasing order. -/
def sortedVars (vars : List Var) : List Var :=
  (Std.TreeSet.ofList vars).toList

/-- Quantify within a bound on the depth. The variables are increasing. -/
def existsWithin : Nat → List Var → Edge → MemoM Edge
  | 0, _, _ => reject (α := Edge) .exhausted
  | depth + 1, vars, edge =>
    if edge.isTerminal then return edge
    else do
      let store ← current
      let v := store.level edge
      let below := (store.low edge, store.high edge)
      match vars.dropWhile (· < v) with
      | [] => return edge
      | w :: rest =>
        memoized edge do
          let low ← existsWithin depth (w :: rest) below.1
          if w = v then
            if low = .one then return low
            else
              let high ← existsWithin depth (w :: rest) below.2
              disj low high
          else
            let high ← existsWithin depth (w :: rest) below.2
            branch v low high

/-- Some values of the variables make the function true. -/
def quantifyExists (edge : Edge) (vars : List Var) : DiagramM Edge := do
  let vars := sortedVars vars
  note .debug fun _ =>
    s!"exists(f = {edge.text}, vars = {Text.bracketed (vars.map fun v => toString v.toNat)})"
  (existsWithin edge.index vars edge).run' ∅

/-- All values of the variables make the function true. -/
def quantifyForall (edge : Edge) (vars : List Var) : DiagramM Edge := do
  return -(← quantifyExists (-edge) vars)

end PlanningGame.Diagram
