/-!
# Repeated names

Fluents, letters and state variables must have different names. The first name that repeats an
earlier one is the one that is reported.
-/
namespace PlanningGame

/-- The first name that is among `seen` or occurs earlier in the list. -/
def firstRepeatAfter (seen : List String) : List String → Option String
  | [] => none
  | name :: rest => if name ∈ seen then some name else firstRepeatAfter (name :: seen) rest

/-- The first name of a list that occurs earlier in it. -/
def firstRepeat (names : List String) : Option String :=
  firstRepeatAfter [] names

end PlanningGame
