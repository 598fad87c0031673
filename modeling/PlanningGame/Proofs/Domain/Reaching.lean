import Mathlib
import PlanningGame.Proofs.Domain.Winning

/-!
# Plays with the help of the environment

If the environment gives the right ones of the reactions that the chosen actions have, play can
come to states that no strategy forces. What is wanted at the end of such a play is a parameter. To
come to a state that is won is no more than to come to the goal: a state that is won has an
applicable action, the action has a reaction, and every reaction of the right action leads nearer to
the goal.
-/
namespace PlanningGame.Domain

variable {domain : Domain} {T U : List Bool → Prop} {s : List Bool} {j k : Nat}

/-- The states from which play can come within a number of steps to a wanted state, which has to
satisfy the invariants and to have an applicable action like all states on the way. -/
inductive ReachesWithin (domain : Domain) (T : List Bool → Prop) : Nat → List Bool → Prop
  | target {k : Nat} {s : List Bool} {name : String} (hinv : domain.Admits s)
      (happ : domain.Applicable name s) (htarget : T s) : ReachesWithin domain T k s
  | step {k : Nat} {s : List Bool} {name reaction : String} (hinv : domain.Admits s)
      (happ : domain.Applicable name s) (hgrounded : domain.Grounded name reaction)
      (hnext : ReachesWithin domain T k (domain.result name reaction s)) :
      ReachesWithin domain T (k + 1) s

/-- Play can come from here to a goal. -/
def Reaches (domain : Domain) (s : List Bool) : Prop :=
  ∃ k, domain.ReachesWithin (fun t => domain.isGoal t = .ok true) k s

theorem ReachesWithin.mono (h : domain.ReachesWithin T j s) (hle : j ≤ k) :
    domain.ReachesWithin T k s := by
  induction h generalizing k with
  | target hinv happ htarget => exact .target hinv happ htarget
  | step hinv happ hgrounded _ ih =>
    obtain ⟨k, rfl⟩ := Nat.exists_eq_add_one_of_ne_zero (Nat.ne_zero_of_lt hle)
    exact .step hinv happ hgrounded (ih (by omega))

@[simp] theorem reachesWithin_zero : domain.ReachesWithin T 0 s ↔
    domain.Admits s ∧ (∃ name, domain.Applicable name s) ∧ T s := by
  constructor
  · intro h
    cases h with
    | target hinv happ htarget => exact ⟨hinv, ⟨_, happ⟩, htarget⟩
  · exact fun ⟨hinv, ⟨_, happ⟩, htarget⟩ => .target hinv happ htarget

theorem reachesWithin_succ : domain.ReachesWithin T (k + 1) s ↔
    domain.ReachesWithin T k s ∨ domain.Admits s ∧ ∃ name reaction, domain.Applicable name s ∧
      domain.Grounded name reaction ∧ domain.ReachesWithin T k (domain.result name reaction s) := by
  constructor
  · intro h
    cases h with
    | target hinv happ htarget => exact .inl (.target hinv happ htarget)
    | step hinv happ hgrounded hnext => exact .inr ⟨hinv, _, _, happ, hgrounded, hnext⟩
  · rintro (h | ⟨hinv, _, _, happ, hgrounded, hnext⟩)
    · exact h.mono (Nat.le_succ k)
    · exact .step hinv happ hgrounded hnext

/-- From the wanted states play may go on to others. -/
theorem ReachesWithin.exists_of_forall (h : domain.ReachesWithin T k s)
    (hnext : ∀ t, T t → ∃ n, domain.ReachesWithin U n t) : ∃ n, domain.ReachesWithin U n s := by
  induction h with
  | target _ _ htarget => exact hnext _ htarget
  | step hinv happ hgrounded _ ih =>
    obtain ⟨n, hn⟩ := ih
    exact ⟨n + 1, .step hinv happ hgrounded hn⟩

/-- A state that is won satisfies the invariants and has an applicable action. -/
theorem helpedWithin_iff_reachesWithin :
    domain.HelpedWithin k s ↔ domain.ReachesWithin domain.Wins k s := by
  constructor
  · intro h
    induction h with
    | won hwins =>
      obtain ⟨name, happ⟩ := hwins.exists_applicable
      exact .target hwins.admits happ hwins
    | step hinv happ hgrounded _ ih => exact .step hinv happ hgrounded ih
  · intro h
    induction h with
    | target _ _ hwins => exact .won hwins
    | step hinv happ hgrounded _ ih => exact .step hinv happ hgrounded ih

theorem Applicable.exists_grounded {name : String} (h : domain.Applicable name s) :
    ∃ reaction, domain.Grounded name reaction := by
  obtain ⟨action, hfind, -⟩ := h
  exact ⟨action.reaction, action, List.mem_of_find?_eq_some hfind,
    by simpa using List.find?_some hfind, rfl⟩

/-- Any reaction that the right action has will do. -/
theorem Wins.reaches (h : domain.Wins s) : domain.Reaches s := by
  induction h with
  | goal hinv happ hgoal => exact ⟨0, .target hinv happ hgoal⟩
  | step hinv happ _ ih =>
    obtain ⟨reaction, hgrounded⟩ := happ.exists_grounded
    obtain ⟨k, hk⟩ := ih reaction hgrounded
    exact ⟨k + 1, .step hinv happ hgrounded hk⟩

/-- Help on the way to a state that is won is help on the way to the goal. -/
theorem exists_helpedWithin_iff_reaches : (∃ k, domain.HelpedWithin k s) ↔ domain.Reaches s := by
  simp only [helpedWithin_iff_reachesWithin]
  constructor
  · exact fun ⟨k, hk⟩ => hk.exists_of_forall fun _ hwins => hwins.reaches
  · rintro ⟨k, hk⟩
    induction hk with
    | target hinv happ hgoal => exact ⟨0, .target hinv happ (.goal hinv happ hgoal)⟩
    | step hinv happ hgrounded _ ih =>
      obtain ⟨n, hn⟩ := ih
      exact ⟨n + 1, .step hinv happ hgrounded hn⟩

theorem noFarther_initial_iff : domain.NoFarther domain.initial ↔ domain.Reaches domain.initial := by
  classical
  rw [← exists_helpedWithin_iff_reaches]
  exact ⟨fun ⟨k, hk, _⟩ => ⟨k, hk⟩,
    fun h => ⟨Nat.find h, Nat.find_spec h, fun m hm => Nat.find_min' h hm⟩⟩

end PlanningGame.Domain
