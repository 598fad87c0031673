import PlanningGame.Binary

/-!
# Table of computed results

Every key has one place, chosen by a hash function. A place holds one key with its result, and a
new result takes the place of the old one. Since the key is kept, a look-up never answers with the
result of another key.
-/
namespace PlanningGame

/-- Results by key, and how often a look-up found one. -/
structure ComputedTable (κ α : Type) where
  slots : Array (Option (κ × α))
  hits : Nat := 0
  misses : Nat := 0

namespace ComputedTable

variable {κ α : Type}

/-- An empty table with `2 ^ bits` places. More than `2 ^ 31` places are refused. -/
def ofBits? (bits : Nat) : Option (ComputedTable κ α) :=
  if bits ≤ 31 then some { slots := Array.replicate (Binary.codes bits) none } else none

/-- The place of a key. -/
def slot (hash : κ → UInt64) (table : ComputedTable κ α) (key : κ) : Nat :=
  (hash key).toNat % table.slots.size

/-- The result kept for a key. -/
def find? [DecidableEq κ] (hash : κ → UInt64) (table : ComputedTable κ α) (key : κ) : Option α :=
  match table.slots[table.slot hash key]? with
  | some (some (kept, result)) => if kept = key then some result else none
  | _ => none

/-- Count a look-up that found something, or one that did not. -/
def count (table : ComputedTable κ α) (found : Bool) : ComputedTable κ α :=
  if found then { table with hits := table.hits + 1 }
  else { table with misses := table.misses + 1 }

/-- Look a key up and count the look-up. -/
def get [DecidableEq κ] (hash : κ → UInt64) (table : ComputedTable κ α) (key : κ) :
    Option α × ComputedTable κ α :=
  let result := table.find? hash key
  (result, table.count result.isSome)

/-- Keep a result at the place of its key. -/
def insert (hash : κ → UInt64) (table : ComputedTable κ α) (key : κ) (result : α) :
    ComputedTable κ α :=
  { table with slots := table.slots.setIfInBounds (table.slot hash key) (some (key, result)) }

/-- Forget all results. The counts stay. -/
def clear (table : ComputedTable κ α) : ComputedTable κ α :=
  { table with slots := Array.replicate table.slots.size none }

end ComputedTable

end PlanningGame
