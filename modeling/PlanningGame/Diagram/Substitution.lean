import Std.Data.HashMap
import Std.Data.TreeMap
import PlanningGame.Diagram.Ite

/-!
# Fixing and replacing variables

A variable can be fixed to a constant or replaced by a function, and a substitution replaces many
variables at the same time. Results for edges met before are kept for the length of one operation.
-/
namespace PlanningGame

/-- Replacements by variable. -/
abbrev Substitution := Std.TreeMap Var Edge

namespace Diagram

/-- Results of one operation, by edge. -/
abbrev Memo := Std.HashMap Edge Edge

/-- Operations on a store that keep the results for edges met before. -/
abbrev MemoM := StateT Memo DiagramM

/-- The kept result for an edge, or else a new one, which is then kept. -/
def memoized (edge : Edge) (compute : MemoM Edge) : MemoM Edge := do
  match (← get)[edge]? with
  | some result => return result
  | none =>
    let result ← compute
    modify (·.insert edge result)
    return result

/-- Fix a variable within a bound on the depth. -/
def restrictWithin (v : Var) (value : Bool) : Nat → Edge → MemoM Edge
  | 0, _ => reject (α := Edge) .exhausted
  | depth + 1, edge => do
    if v = 0 then reject (α := Edge) .zeroVariable
    else
      let store ← current
      let top := store.level edge
      if v < top then return edge
      else if v = top then return if value then store.high edge else store.low edge
      else
        let below := (store.low edge, store.high edge)
        memoized edge do
          let low ← restrictWithin v value depth below.1
          let high ← restrictWithin v value depth below.2
          branch top low high

/-- The function with a variable fixed. -/
def restrict (edge : Edge) (v : Var) (value : Bool) : DiagramM Edge :=
  (restrictWithin v value edge.index edge).run' ∅

/-- The function with a variable replaced by another function. -/
def compose (f : Edge) (v : Var) (g : Edge) : DiagramM Edge := do
  note .debug fun _ => s!"compose(f = {f.text}, v = {v.toNat}, g = {g.text})"
  let whenTrue ← restrict f v true
  let whenFalse ← restrict f v false
  ite g whenTrue whenFalse

/-- Replace variables within a bound on the depth. -/
def substituteWithin (images : Substitution) : Nat → Edge → MemoM Edge
  | 0, _ => reject (α := Edge) .exhausted
  | depth + 1, edge =>
    if edge.isTerminal then return edge
    else do
      let result ← memoized edge.regular do
        let node := (← current).node edge.index
        let low ← substituteWithin images depth node.low
        let high ← substituteWithin images depth node.high
        let image ← match images[node.var]? with
          | some image => pure image
          | none => literal node.var
        ite image high low
      return result.complementIf edge.negated

/-- The function with all mapped variables replaced at the same time. -/
def substitute (edge : Edge) (images : Substitution) : DiagramM Edge := do
  note .debug fun _ => s!"vector_compose(f = {edge.text}, |subst| = {images.size})"
  if images.isEmpty then return edge
  else (substituteWithin images edge.index edge).run' ∅

end Diagram

end PlanningGame
