import PlanningGame.Text.Quoted
import PlanningGame.Diagram.Reachable

/-!
# Drawing diagrams

Diagrams as a graph description for Graphviz. The terminal is a square at the bottom, nodes of one
variable stand in one row, and the roots are rectangles at the top. Solid arrows are high edges,
dashed arrows are low edges, and a marked edge ends in a hollow circle.
-/
namespace PlanningGame.Store

/-- Arrow between two drawn nodes. -/
def arrow (source : String) (target : Edge) (style : String) : String :=
  s!"{source} -> {target.index} [style={style}"
    ++ (if target.negated then ", arrowhead=odot];" else "];")

/-- The positions of each variable, both in increasing order. -/
def rows (store : Store) (roots : List Edge) : List (Var × List Nat) :=
  let inner := store.innerPositions roots
  let vars := (Std.TreeSet.ofList (inner.map fun index => (store.node index).var)).toList
  vars.map fun v => (v, inner.filter fun index => (store.node index).var = v)

/-- The lines of a drawing. -/
def drawingLines (store : Store) (roots : List Edge) (label : Var → String) : List String :=
  let rows := store.rows roots
  let numbered := roots.zipIdx
  ["digraph \x7b", "node [shape=circle];",
    "\x7b rank=sink; 1 [shape=square, label=\"1\"]; \x7d"]
  ++ rows.flatMap (fun (v, positions) =>
    ["\x7b rank=same"]
    ++ positions.map (fun index =>
      toString index ++ " [label=\"" ++ Text.label (label v) ++ "\"];")
    ++ ["\x7d"])
  ++ rows.flatMap (fun (_, positions) => positions.flatMap fun index =>
    [arrow (toString index) (store.node index).high "solid",
      arrow (toString index) (store.node index).low "dashed"])
  ++ ["\x7b rank=source"]
  ++ numbered.map (fun (root, i) => s!"r{i} [shape=rect, label=\"{root.text}\"];")
  ++ ["\x7d"]
  ++ numbered.map (fun (root, i) => arrow s!"r{i}" root "solid")
  ++ ["\x7d"]

/-- The drawing of some diagrams, with the given names of variables. -/
def drawing (store : Store) (roots : List Edge) (label : Var → String) : String :=
  String.join ((store.drawingLines roots label).map (· ++ "\n"))

/-- The name of a variable that has no other. -/
def plainName (v : Var) : String :=
  "x" ++ toString v.toNat

end PlanningGame.Store
