import Mathlib
import PlanningGame.ComputedTable

/-!
# Results that are kept

A look-up only counts: the places stay as they are, and what it finds is in one of them. A new
result is the only one that is not from before.
-/
namespace PlanningGame.ComputedTable

variable {κ α : Type} {hash : κ → UInt64} {table : ComputedTable κ α} {key : κ} {result : α}

@[simp] theorem slots_count (found : Bool) : (table.count found).slots = table.slots := by
  cases found <;> rfl

theorem slots_get [DecidableEq κ] : (table.get hash key).2.slots = table.slots :=
  slots_count _

theorem find?_eq_some_iff [DecidableEq κ] :
    table.find? hash key = some result ↔
      table.slots[table.slot hash key]? = some (some (key, result)) := by
  unfold find?
  split
  case h_1 kept found hslot =>
    rw [hslot]
    split
    case isTrue hkey => simp [hkey]
    case isFalse hkey => simp [hkey]
  case h_2 hslot =>
    refine iff_of_false (by simp) fun h => ?_
    exact hslot key result h

theorem exists_slot_of_find? [DecidableEq κ] (h : table.find? hash key = some result) :
    ∃ i : Nat, table.slots[i]? = some (some (key, result)) :=
  ⟨_, find?_eq_some_iff.1 h⟩

theorem slot_of_insert {i : Nat} {kept : κ} {found : α}
    (h : (table.insert hash key result).slots[i]? = some (some (kept, found))) :
    (kept = key ∧ found = result) ∨ table.slots[i]? = some (some (kept, found)) := by
  unfold insert at h
  rw [Array.getElem?_setIfInBounds] at h
  split at h
  · split at h
    · obtain ⟨rfl, rfl⟩ : key = kept ∧ result = found := by simpa using h
      exact .inl ⟨rfl, rfl⟩
    · exact absurd h (by simp)
  · exact .inr h

end PlanningGame.ComputedTable
