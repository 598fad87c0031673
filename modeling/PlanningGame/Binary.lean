/-!
# Binary codes of numbers

Codes are lists of booleans, least significant bit first. Agent actions, reactions and automaton
states are numbered from zero and written in the fewest bits that hold the largest number.
-/
namespace PlanningGame.Binary

/-- How many bits the numbers `0, …, n` need. The single number zero needs none. -/
def width (n : Nat) : Nat :=
  if n = 0 then 0 else n.log2 + 1

/-- How many codes of `count` bits there are: `2 ^ count`. -/
def codes (count : Nat) : Nat :=
  Nat.pow 2 count

/-- The lowest `count` bits of `n`. -/
def encode (n count : Nat) : List Bool :=
  (List.range count).map n.testBit

/-- The number with the given bits. -/
def decode : List Bool → Nat
  | [] => 0
  | bit :: rest => bit.toNat + 2 * decode rest

/-- The bits as a text of zeros and ones, in list order. -/
def text (bits : List Bool) : String :=
  String.ofList (bits.map fun bit => if bit then '1' else '0')

/-- A digit as a bit. -/
def bitOf? : Char → Option Bool
  | '0' => some false
  | '1' => some true
  | _ => none

/-- The bits of a text of zeros and ones. -/
def ofText? (text : String) : Option (List Bool) :=
  text.toList.mapM bitOf?

end PlanningGame.Binary
