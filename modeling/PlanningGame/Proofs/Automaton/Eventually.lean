import Mathlib
import PlanningGame.Proofs.Registry
import PlanningGame.Proofs.Automaton.Dfa

/-!
# Automata that wait

The automaton that waits for some fluents has two states. It moves to the second one when it reads
the letter with all bits set, stays there, and accepts there only.
-/
namespace PlanningGame.Dfa

variable {names : List String} {dfa : Dfa} {letter q : Nat}

/-- The table of an automaton that waits for all of the fluents at once. -/
def waiting (names : List String) : Dfa where
  alphabet := names
  initial := 0
  accepting := (∅ : Std.TreeSet Nat).insert 1
  successors :=
    [(List.range (Binary.codes names.length - 1 + 1)).map fun letter =>
        if letter = Binary.codes names.length - 1 then 1 else 0,
      List.replicate (Binary.codes names.length - 1 + 1) 1]

theorem codes_sub_add (count : Nat) : Binary.codes count - 1 + 1 = 2 ^ count :=
  Nat.sub_add_cancel (Nat.two_pow_pos count)

theorem accepts_waiting_iff : (waiting names).accepts q = true ↔ q = 1 := by
  change ((∅ : Std.TreeSet Nat).insert 1).contains q = true ↔ q = 1
  rw [Std.TreeSet.contains_insert, Std.TreeSet.contains_emptyc, Bool.or_false, beq_iff_eq,
    Std.LawfulEqOrd.compare_eq_iff_eq, eq_comm]

theorem move_waiting_zero (h : letter < 2 ^ names.length) :
    (waiting names).move 0 letter = if letter + 1 = 2 ^ names.length then 1 else 0 := by
  have hrow : (List.range (Binary.codes names.length - 1 + 1))[letter]? = some letter :=
    List.getElem?_range (h.trans_eq (codes_sub_add _).symm)
  have hlast : letter = Binary.codes names.length - 1 ↔ letter + 1 = 2 ^ names.length := by
    rw [← codes_sub_add, Nat.add_right_cancel_iff]
  unfold move successor? waiting
  rw [List.getElem?_cons_zero, Option.bind_eq_bind, Option.bind_some, List.getElem?_map, hrow,
    Option.map_some, Option.getD_some]
  exact if_congr hlast rfl rfl

theorem rowFault?_waiting {row : List Nat} (hrow : row ∈ (waiting names).successors)
    (state : Nat) : rowFault? 2 (Binary.codes names.length) state row = none := by
  have hcodes : Binary.codes names.length - 1 + 1 = Binary.codes names.length := codes_sub_add _
  have hall : ∀ row ∈ (waiting names).successors,
      row.length = Binary.codes names.length ∧ ∀ q ∈ row, q < 2 := by
    unfold waiting
    rw [hcodes]
    refine List.forall_mem_cons.2 ⟨⟨by simp, ?_⟩, List.forall_mem_singleton.2 ⟨by simp, ?_⟩⟩
    · rw [List.forall_mem_map]
      intro letter _
      split <;> decide
    · intro q hq
      rw [List.eq_of_mem_replicate hq]
      decide
  obtain ⟨hcount, hlt⟩ := hall row hrow
  have hfind : row.find? (2 ≤ ·) = none :=
    List.find?_eq_none.2 fun q hq => by simpa using hlt q hq
  unfold rowFault?
  rw [if_neg (not_not.2 hcount), hfind, Option.map_none]

theorem fault?_waiting (hnodup : names.Nodup) (hlength : names.length ≤ maxAlphabet) :
    (waiting names).fault? = none := by
  have haccepting : (waiting names).accepting.toList.find? (2 ≤ ·) = none := by
    refine List.find?_eq_none.2 fun q hq => ?_
    obtain rfl := accepts_waiting_iff.1 (Std.TreeSet.mem_iff_contains.1 (Std.TreeSet.mem_toList.1 hq))
    decide
  have hsize : (waiting names).successors.length = 2 := rfl
  have hinitial : (waiting names).initial = 0 := rfl
  have halphabet : (waiting names).alphabet = names := rfl
  unfold fault?
  dsimp only
  rw [hsize, hinitial, if_neg (by decide), if_neg (by decide), haccepting, halphabet]
  dsimp only
  rw [if_neg (Nat.not_lt.2 hlength), firstRepeat_eq_none_iff.2 hnodup]
  exact List.findSome?_eq_none_iff.2 fun (_, state) hmem =>
    rowFault?_waiting (List.mem_of_getElem? (List.mem_zipIdx_iff_getElem?.1 hmem)) state

theorem checked_waiting (hnodup : names.Nodup) (hlength : names.length ≤ maxAlphabet) :
    (waiting names).checked = .ok (waiting names) := by
  unfold checked
  rw [fault?_waiting hnodup hlength]

/-- The automaton for the fluents is that table, if they are different and not too many. -/
theorem eventuallyAll_eq (hnodup : names.Nodup) (hlength : names.length ≤ maxAlphabet) :
    eventuallyAll names = .ok (waiting names) := by
  unfold eventuallyAll
  rw [if_neg (Nat.not_lt.2 hlength)]
  exact checked_waiting hnodup hlength

theorem wellFormed_waiting (hnodup : names.Nodup) (hlength : names.length ≤ maxAlphabet) :
    (waiting names).WellFormed :=
  wellFormed_of_checked (checked_waiting hnodup hlength)

end PlanningGame.Dfa
