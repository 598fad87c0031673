import Mathlib
import PlanningGame.Proofs.Domain.Winning

/-!
# Strong plans

A policy is a strong plan if every play that follows it goes on by applicable actions and reaches
the goal within a number of steps, whatever the reactions are. The game of the domain asks for a
little more: the goal is reached with an action, so that a play must not end in a state without
applicable actions. Apart from this, winning and having a strong plan are the same.
-/
namespace PlanningGame.Domain

variable {domain : Domain} {policy : List Bool → String} {k n : Nat} {s : List Bool}

/-- The states that plays visit after a number of steps. Plays end with the goal. -/
inductive Visits (domain : Domain) (policy : List Bool → String) : Nat → List Bool → Prop
  | start : Visits domain policy 0 domain.initial
  | step {n : Nat} {s : List Bool} {reaction : String} (h : Visits domain policy n s)
      (hgoal : ¬ domain.isGoal s = .ok true) (hgrounded : domain.Grounded (policy s) reaction) :
      Visits domain policy (n + 1) (domain.result (policy s) reaction s)

/-- Every play that follows the policy reaches the goal within the given number of steps, and the
chosen actions are applicable until then. -/
structure StrongPlan (domain : Domain) (policy : List Bool → String) (k : Nat) : Prop where
  applicable : ∀ (n : Nat) (s : List Bool), domain.Visits policy n s →
    ¬ domain.isGoal s = .ok true → domain.Applicable (policy s) s
  reaches : ∀ (n : Nat) (s : List Bool), domain.Visits policy n s →
    ¬ domain.isGoal s = .ok true → n < k

/-- Some action is applicable in every goal state in which a play ends. -/
def EndsAlive (domain : Domain) (policy : List Bool → String) : Prop :=
  ∀ (n : Nat) (s : List Bool), domain.Visits policy n s → domain.isGoal s = .ok true →
    ∃ name, domain.Applicable name s

/-- A policy whose first action is applicable and reaches the goal with each of its reactions. -/
theorem strongPlan_one (happ : domain.Applicable (policy domain.initial) domain.initial)
    (hgoal : ∀ reaction, domain.Grounded (policy domain.initial) reaction →
      domain.isGoal (domain.result (policy domain.initial) reaction domain.initial) = .ok true) :
    domain.StrongPlan policy 1 := by
  have hvisits : ∀ (n : Nat) (s : List Bool), domain.Visits policy n s →
      ¬ domain.isGoal s = .ok true → n = 0 ∧ s = domain.initial := by
    intro n s h
    induction h with
    | start => exact fun _ => ⟨rfl, rfl⟩
    | step _ hnot hgrounded ih =>
      obtain ⟨-, rfl⟩ := ih hnot
      exact fun h => absurd (hgoal _ hgrounded) h
  constructor
  · intro n s h hnot
    obtain ⟨-, rfl⟩ := hvisits n s h hnot
    exact happ
  · intro n s h hnot
    obtain ⟨rfl, -⟩ := hvisits n s h hnot
    exact Nat.zero_lt_one

theorem admits_of_invariants_eq_nil (hinvariants : domain.invariants = []) (s : List Bool) :
    domain.Admits s := by
  intro invariant hmem
  rw [hinvariants] at hmem
  exact absurd hmem List.not_mem_nil

/-- Backward induction over the plays, on the number of steps that are left. -/
theorem StrongPlan.winsWithin (h : domain.StrongPlan policy k) (halive : domain.EndsAlive policy)
    (hinvariants : domain.invariants = []) : domain.WinsWithin k domain.initial := by
  have hadmits := admits_of_invariants_eq_nil hinvariants
  have hend : ∀ n s left, domain.Visits policy n s → domain.isGoal s = .ok true →
      domain.WinsWithin left s := by
    intro n s left hvisits hgoal
    obtain ⟨name, happ⟩ := halive n s hvisits hgoal
    exact .goal (hadmits s) happ hgoal
  suffices key : ∀ left n s, n + left = k → domain.Visits policy n s → domain.WinsWithin left s from
    key k 0 _ (Nat.zero_add k) .start
  intro left
  induction left with
  | zero =>
    intro n s hk hvisits
    by_cases hgoal : domain.isGoal s = .ok true
    · exact hend n s 0 hvisits hgoal
    · have := h.reaches n s hvisits hgoal
      omega
  | succ left ih =>
    intro n s hk hvisits
    by_cases hgoal : domain.isGoal s = .ok true
    · exact hend n s _ hvisits hgoal
    · refine .step (hadmits s) (h.applicable n s hvisits hgoal) fun reaction hgrounded => ?_
      exact ih (n + 1) _ (by omega) (hvisits.step hgoal hgrounded)

/-- In every state there is an action that is best however many steps are allowed. -/
theorem exists_best (domain : Domain) (s : List Bool) :
    ∃ name, ∀ k, domain.WinsWithin k s → ¬ domain.isGoal s = .ok true →
      domain.Applicable name s ∧ ∃ j < k, ∀ reaction, domain.Grounded name reaction →
        domain.WinsWithin j (domain.result name reaction s) := by
  classical
  by_cases hwins : ∃ k, domain.WinsWithin k s
  · have hleast := Nat.find_spec hwins
    generalize hfewest : Nat.find hwins = fewest at hleast
    cases hleast with
    | goal _ _ hgoal => exact ⟨"", fun _ _ hnot => absurd hgoal hnot⟩
    | @step j _ name _ happ hnext =>
      -- the action that wins in the fewest steps is as good for any larger number of them
      refine ⟨name, fun k hk _ => ⟨happ, j, ?_, hnext⟩⟩
      have := Nat.find_min' hwins hk
      omega
  · exact ⟨"", fun k hk => absurd ⟨k, hk⟩ hwins⟩

/-- The best actions are a strong plan for a state that is won. -/
theorem Wins.exists_strongPlan (h : domain.Wins domain.initial) :
    ∃ policy k, domain.StrongPlan policy k ∧ domain.EndsAlive policy := by
  obtain ⟨k, hk⟩ := h.exists_within
  choose policy hbest using exists_best domain
  have hvisits : ∀ (n : Nat) (s : List Bool), domain.Visits policy n s →
      ∃ left, n + left ≤ k ∧ domain.WinsWithin left s := by
    intro n s h
    induction h with
    | start => exact ⟨k, by omega, hk⟩
    | @step n s reaction _ hnot hgrounded ih =>
      obtain ⟨left, hle, hwins⟩ := ih
      obtain ⟨-, j, hj, hnext⟩ := hbest s left hwins hnot
      exact ⟨j, by omega, hnext reaction hgrounded⟩
  refine ⟨policy, k, ⟨fun n s h hnot => ?_, fun n s h hnot => ?_⟩, fun n s h _ => ?_⟩
  · obtain ⟨left, -, hwins⟩ := hvisits n s h
    exact (hbest s left hwins hnot).1
  · obtain ⟨left, hle, hwins⟩ := hvisits n s h
    obtain ⟨-, j, hj, -⟩ := hbest s left hwins hnot
    omega
  · obtain ⟨left, -, hwins⟩ := hvisits n s h
    exact hwins.exists_applicable

/-- Without invariants a domain is won exactly by strong plans whose plays end in states with
applicable actions. -/
theorem wins_iff_exists_strongPlan (hinvariants : domain.invariants = []) :
    domain.Wins domain.initial ↔
      ∃ policy k, domain.StrongPlan policy k ∧ domain.EndsAlive policy :=
  ⟨Wins.exists_strongPlan, fun ⟨_, _, hplan, halive⟩ => (hplan.winsWithin halive hinvariants).wins⟩

end PlanningGame.Domain
