import Mathlib
import PlanningGame.Names

/-!
# Names that differ

No name is reported exactly if all names differ. What is reported otherwise is the first name, after
some that differ, that is one of these.
-/
namespace PlanningGame

theorem firstRepeatAfter_eq_none {seen names : List String}
    (h : firstRepeatAfter seen names = none) : names.Nodup ∧ ∀ name ∈ names, name ∉ seen := by
  induction names generalizing seen with
  | nil => simp
  | cons name rest ih =>
    rw [firstRepeatAfter] at h
    split at h
    · exact absurd h (by simp)
    · next hname =>
      obtain ⟨hnodup, hseen⟩ := ih h
      constructor
      · exact List.nodup_cons.2 ⟨fun hmem => hseen name hmem List.mem_cons_self, hnodup⟩
      · intro other hother
        rcases List.mem_cons.1 hother with rfl | hmem
        · exact hname
        · exact fun hin => hseen other hmem (List.mem_cons_of_mem _ hin)

theorem nodup_of_firstRepeat_eq_none {names : List String} (h : firstRepeat names = none) :
    names.Nodup :=
  (firstRepeatAfter_eq_none h).1

/-- Names that differ are passed over. -/
theorem firstRepeatAfter_append {seen names : List String} (hnodup : names.Nodup)
    (hseen : ∀ name ∈ names, name ∉ seen) (others : List String) :
    firstRepeatAfter seen (names ++ others) = firstRepeatAfter (names.reverse ++ seen) others := by
  induction names generalizing seen with
  | nil => rfl
  | cons name rest ih =>
    obtain ⟨hname, hrest⟩ := List.nodup_cons.1 hnodup
    obtain ⟨hnew, hold⟩ := List.forall_mem_cons.1 hseen
    rw [List.cons_append, firstRepeatAfter, if_neg hnew, List.reverse_cons, List.append_assoc]
    refine ih hrest fun other hother hmem => ?_
    rcases List.mem_cons.1 hmem with rfl | hmem
    · exact hname hother
    · exact hold other hother hmem

theorem firstRepeat_append {names : List String} (h : names.Nodup) (others : List String) :
    firstRepeat (names ++ others) = firstRepeatAfter names.reverse others := by
  rw [firstRepeat, firstRepeatAfter_append h fun _ _ => List.not_mem_nil, List.append_nil]

theorem firstRepeat_eq_none_iff {names : List String} : firstRepeat names = none ↔ names.Nodup :=
  ⟨nodup_of_firstRepeat_eq_none, fun h => by simpa [firstRepeatAfter] using firstRepeat_append h []⟩

end PlanningGame
