/-!
# Edges

An edge names a node by its position and may carry a complement mark, which negates the function
below it. Position one holds the only terminal, so its two edges are the constants.
-/
namespace PlanningGame

/-- How many positions an edge can tell apart. -/
def Edge.positions : Nat := 0x80000000

/-- A node position with a complement mark. -/
@[ext]
structure Edge where
  index : Nat
  negated : Bool
  bounded : index < Edge.positions
  deriving DecidableEq

namespace Edge

/-- The edge to a position. Only the lowest 31 bits of the position are kept. -/
def ofIndex (index : Nat) (negated : Bool) : Edge :=
  ⟨index % positions, negated, Nat.mod_lt _ (by decide)⟩

/-- The constant true. -/
def one : Edge := ⟨1, false, by decide⟩

/-- The constant false. -/
def zero : Edge := ⟨1, true, by decide⟩

instance : Inhabited Edge := ⟨one⟩

/-- Negation changes the mark only. -/
instance : Neg Edge := ⟨fun edge => { edge with negated := !edge.negated }⟩

/-- The negation of an edge if `mark` is set, otherwise the edge itself. -/
def complementIf (edge : Edge) (mark : Bool) : Edge :=
  if mark then -edge else edge

/-- The edge without its mark. -/
def regular (edge : Edge) : Edge := { edge with negated := false }

/-- Whether the edge is one of the two constants. -/
def isTerminal (edge : Edge) : Bool := edge.index == 1

/-- Position and mark in one number, the mark in the lowest bit. -/
def word (edge : Edge) : Nat := 2 * edge.index + edge.negated.toNat

instance : Hashable Edge := ⟨fun edge => edge.word.toUInt64⟩

/-- An edge is written with its position, after a tilde if it is marked. -/
def text (edge : Edge) : String :=
  (if edge.negated then "~@" else "@") ++ toString edge.index

end Edge

end PlanningGame
