import PlanningGame.Binary
import PlanningGame.Diagram.Store

/-!
# Evaluation

The function of an edge: under a valuation of all variables, follow the chosen edges down to a
constant. This is the reading of a diagram by which its operations are judged.
-/
namespace PlanningGame

/-- A value for every variable. -/
abbrev Valuation := Var → Bool

namespace Valuation

/-- The valuation that makes exactly the listed variables true. -/
def ofTrue (vars : List Var) : Valuation :=
  fun v => vars.contains v

/-- The valuation that reads the listed variables off a number, least significant bit first. A
variable listed twice reads the bit of its first place. All others are false. -/
def ofNumber (vars : List Var) (number : Nat) : Valuation :=
  fun v => (vars.idxOf? v).any number.testBit

/-- The valuation with one variable changed. -/
def update (valuation : Valuation) (v : Var) (value : Bool) : Valuation :=
  fun w => if w = v then value else valuation w

/-- Give the listed variables the listed values, in order: a later value of a variable replaces an
earlier one. Surplus variables or values are left out. -/
def assign (valuation : Valuation) : List Var → List Bool → Valuation
  | v :: vars, value :: values => (valuation.update v value).assign vars values
  | _, _ => valuation

end Valuation

namespace Store

/-- Follow the valuation for at most `depth` steps. -/
def evalWithin (store : Store) (valuation : Valuation) : Nat → Edge → Bool
  | 0, edge => edge = .one
  | depth + 1, edge =>
    if edge.isTerminal then edge = .one
    else
      evalWithin store valuation depth
        (if valuation (store.node edge.index).var then store.high edge else store.low edge)

/-- The value of the function under a valuation. -/
def eval (store : Store) (edge : Edge) (valuation : Valuation) : Bool :=
  store.evalWithin valuation edge.index edge

/-- The values for all numbers on the given variables, least significant bit first, when all other
variables are false. -/
def truthTable (store : Store) (edge : Edge) (vars : List Var) : List Bool :=
  (List.range (Binary.codes vars.length)).map fun number =>
    store.eval edge (Valuation.ofNumber vars number)

end Store

end PlanningGame
