import PlanningGame.Settings
import PlanningGame.Journal
import PlanningGame.Text.Quoted
import PlanningGame.UniqueTable
import PlanningGame.ComputedTable
import PlanningGame.Diagram.Node

/-!
# Stores of decision diagrams

All diagrams live in one store, which keeps every node once. The high edge of a stored node is
never marked and its two edges differ, so two edges stand for the same function only if they are
equal, as long as variables increase from the root to the terminal. Variables are tested in the
order of their numbers.

Reading a store is a plain function; what may add nodes runs in `DiagramM`, where a failure keeps
the nodes added before it.
-/
namespace PlanningGame

/-- Nodes, computed results, and the messages of the operations. -/
structure Store where
  nodes : UniqueTable Node
  computed : ComputedTable Triple Edge
  journal : Journal

/-- Operations on a store that may fail. The store reached by then is kept. -/
abbrev DiagramM := ExceptT Failure (StateM Store)

namespace Store

/-- A store that holds the terminal only. -/
def create (sizes : TableSizes) (journal : Journal) : Except Failure Store :=
  match UniqueTable.ofBits? sizes.storageBits, ComputedTable.ofBits? sizes.cacheBits with
  | some nodes, some computed => .ok ⟨(nodes.add .terminal).2, computed, journal⟩
  | _, _ => .error (.breach .tableTooLarge)

/-- The node at a position, if there is one. -/
def node? (store : Store) (index : Nat) : Option Node :=
  store.nodes.value? index

/-- The node at a position. A position that is not in use reads as the terminal. -/
def node (store : Store) (index : Nat) : Node :=
  (store.node? index).getD .terminal

/-- The low edge below an edge, with the mark of the edge passed on. -/
def low (store : Store) (edge : Edge) : Edge :=
  (store.node edge.index).low.complementIf edge.negated

/-- The high edge below an edge, with the mark of the edge passed on. -/
def high (store : Store) (edge : Edge) : Edge :=
  (store.node edge.index).high.complementIf edge.negated

/-- The level of the constants, below every variable. -/
def lastLevel : Var := 0xFFFFFFFF

/-- The variable tested first, as a place in the order. -/
def level (store : Store) (edge : Edge) : Var :=
  if edge.isTerminal then lastLevel else (store.node edge.index).var

/-- The topmost variable of a triple. -/
def topVar (store : Store) (triple : Triple) : Var :=
  min (min (store.level triple.condition) (store.level triple.positive))
    (store.level triple.negative)

/-- Number of nodes, the terminal included. -/
def nodeCount (store : Store) : Nat :=
  store.nodes.size

/-- The counts of a store on one line. -/
def text (store : Store) : String :=
  Text.record "Bdd"
    [("size", toString store.nodes.size), ("buckets", toString store.nodes.buckets.size),
      ("cache_hits", toString store.computed.hits),
      ("cache_misses", toString store.computed.misses)]

/-- Low and high edge with respect to a variable that is not below the top of the edge. -/
def cofactors (store : Store) (edge : Edge) (v : Var) : Except Failure (Edge × Edge) :=
  if v = 0 then .error (.breach .zeroVariable)
  else if v < store.level edge then .ok (edge, edge)
  else if v = store.level edge then .ok (store.low edge, store.high edge)
  else .error (.breach .belowTop)

/-- Keep a message if its level is wanted. -/
def note (store : Store) (level : Level) (message : Unit → String) : Store :=
  { store with journal := store.journal.record level message }

/-- The unmarked edge to a position. -/
def edgeTo (index : Nat) : Except Failure Edge :=
  if bounded : index < Edge.positions then .ok ⟨index, false, bounded⟩
  else .error (.breach .storeFull)

/-- The edge to a node, which is added if it is new. Growth of the node table is reported. -/
def intern (store : Store) (node : Node) : Except Failure Edge × Store :=
  let ⟨nodes, computed, journal⟩ := store
  match nodes.find? Node.key node with
  | some index => (edgeTo index, ⟨nodes, computed, journal⟩)
  | none =>
    let nodes := nodes.insert Node.key node
    let index := nodes.size
    if nodes.isCrowded then
      let nodes := nodes.grow Node.key
      let count := nodes.buckets.size
      let journal := journal.record .debug fun _ => s!"Growing unique table to {count} buckets"
      (edgeTo index, ⟨nodes, computed, journal⟩)
    else (edgeTo index, ⟨nodes, computed, journal⟩)

end Store

namespace Diagram

/-- The store as it is now. -/
def current : DiagramM Store := get

/-- Fail because a rule of the operation is broken. -/
def reject {α : Type} (breach : Breach) : DiagramM α :=
  throw (.breach breach)

/-- Report what the operation does. -/
def note (level : Level) (message : Unit → String) : DiagramM Unit :=
  modify (·.note level message)

/-- The edge to a node whose high edge carries no mark. Equal edges need no node. -/
def reduced (v : Var) (low high : Edge) : DiagramM Edge :=
  if low = high then pure low
  else ExceptT.mk fun store => store.intern ⟨v, low, high⟩

/-- If `v` then `high` else `low`. A mark on the high edge is moved above the node. -/
def branch (v : Var) (low high : Edge) : DiagramM Edge := do
  if v = 0 then reject .zeroVariable
  else if high.negated then return -(← reduced v (-low) (-high))
  else reduced v low high

/-- The value of a variable. -/
def literal (v : Var) : DiagramM Edge :=
  branch v .zero .one

/-- Low and high edge with respect to a variable that is not below the top of the edge. -/
def cofactors (edge : Edge) (v : Var) : DiagramM (Edge × Edge) := do
  match (← current).cofactors edge v with
  | .ok edges => pure edges
  | .error failure => throw failure

/-- Add one literal above a cube. Negative numbers stand for negated variables. -/
def addLiteral (cube : Edge) (literal : Int) : DiagramM Edge :=
  let v := literal.natAbs.toUInt32
  if literal < 0 then branch v cube .zero else branch v .zero cube

/-- The conjunction of literals, built from the last variable up. -/
def cube (literals : List Int) : DiagramM Edge := do
  let ordered := literals.mergeSort fun a b => b.natAbs ≤ a.natAbs
  note .debug fun _ => s!"cube(literals = {Text.bracketed (ordered.map toString)})"
  ordered.foldlM addLiteral .one

end Diagram

end PlanningGame
