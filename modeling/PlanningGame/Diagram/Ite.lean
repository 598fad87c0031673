import PlanningGame.Diagram.Store

/-!
# If-then-else and the connectives

Every connective is an if-then-else on edges. A triple is first brought to standard form; what is
then left is split by its topmost variable, low branch first, and its result is kept in the
computed table. A child is stored before its parent, so the sum of the positions of a triple bounds
the depth of the recursion.
-/
namespace PlanningGame.Diagram

/-- Look a standard triple up among the computed results. -/
def known? (triple : Triple) : DiagramM (Option Edge) :=
  modifyGet fun ⟨nodes, computed, journal⟩ =>
    let (found, computed) := computed.get Triple.key triple
    (found, ⟨nodes, computed, journal⟩)

/-- Keep the result of a standard triple. -/
def remember (triple : Triple) (edge : Edge) : DiagramM Unit :=
  modify fun ⟨nodes, computed, journal⟩ =>
    ⟨nodes, computed.insert Triple.key triple edge, journal⟩

/-- If-then-else within a bound on the depth. -/
def iteWithin : Nat → Triple → DiagramM Edge
  | 0, _ => reject .exhausted
  | depth + 1, triple =>
    match triple.standard with
    | .settled edge => pure edge
    | .reduced triple negated => do
      match ← known? triple with
      | some edge => return edge.complementIf negated
      | none =>
        let v := (← current).topVar triple
        let (f0, f1) ← cofactors triple.condition v
        let (g0, g1) ← cofactors triple.positive v
        let (h0, h1) ← cofactors triple.negative v
        let low ← iteWithin depth ⟨f0, g0, h0⟩
        let high ← iteWithin depth ⟨f1, g1, h1⟩
        let edge ← branch v low high
        remember triple edge
        return edge.complementIf negated

/-- If `f` then `g` else `h`. -/
def ite (f g h : Edge) : DiagramM Edge :=
  iteWithin (Triple.weight ⟨f, g, h⟩ + 1) ⟨f, g, h⟩

/-- Conjunction. -/
def conj (f g : Edge) : DiagramM Edge := ite f g .zero

/-- Disjunction. -/
def disj (f g : Edge) : DiagramM Edge := ite f .one g

/-- Exclusive disjunction. -/
def differ (f g : Edge) : DiagramM Edge := ite f (-g) g

/-- Equivalence. -/
def agree (f g : Edge) : DiagramM Edge := ite f g (-g)

/-- Implication. -/
def imply (f g : Edge) : DiagramM Edge := ite f g .one

/-- Conjunction with each edge in turn, until the result is false. -/
def conjFrom (edge : Edge) : List Edge → DiagramM Edge
  | [] => pure edge
  | f :: rest => do
    let edge ← conj edge f
    if edge = .zero then return edge else conjFrom edge rest

/-- Conjunction of a list, from the left. -/
def conjAll (edges : List Edge) : DiagramM Edge := conjFrom .one edges

/-- Disjunction with each edge in turn, until the result is true. -/
def disjFrom (edge : Edge) : List Edge → DiagramM Edge
  | [] => pure edge
  | f :: rest => do
    let edge ← disj edge f
    if edge = .one then return edge else disjFrom edge rest

/-- Disjunction of a list, from the left. -/
def disjAll (edges : List Edge) : DiagramM Edge := disjFrom .zero edges

/-- Whether the first function implies the second everywhere. -/
def entails (f g : Edge) : DiagramM Bool := do
  return (← imply f g) = .one

/-- Whether each edge implies the next. The pairs are compared in order until one does not. -/
def increasing : List Edge → DiagramM Bool
  | f :: g :: rest => do
    if ← entails f g then increasing (g :: rest) else return false
  | _ => return true

end PlanningGame.Diagram
