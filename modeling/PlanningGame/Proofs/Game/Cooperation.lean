import Mathlib
import PlanningGame.Proofs.Game.Choice

/-!
# Games with a helping opponent

A search with the help of the opponent is a breadth-first search backwards from the goal. After
some iterations it has found exactly the states from which as many safe moves of both players
together lead to the goal. For each of these states it keeps the moves found when the state was new,
so the number of the layer goes down with one answer of the opponent.
-/
namespace PlanningGame.Game

section Sets

variable (game : Game) (store : Store) (goal space : Edge)

/-- The states from which both players together reach the goal by a number of safe moves. -/
def helped : Nat → Set (List Bool)
  | 0 => base game store goal space
  | k + 1 => helped k ∪ {s | ∃ X Y, game.arena.Holds store space s X Y ∧
      game.arena.successor store s X Y ∈ helped k}

/-- The moves of the protagonist that lead into the given states by some move of the opponent. -/
def assists (W : Set (List Bool)) (s : List Bool) (X Y : Valuation) : Prop :=
  match game.protagonist with
  | .agent => ∃ X, game.arena.successor store s X Y ∈ W
  | .environment => ∃ Y, game.arena.successor store s X Y ∈ W

variable {game store goal space}

theorem helped_mono {j k : Nat} (h : j ≤ k) :
    helped game store goal space j ⊆ helped game store goal space k :=
  monotone_nat_of_le_succ (f := helped game store goal space)
    (fun _ => Set.subset_union_left) h

/-- If no state is new after one more step then none is after any number of steps. -/
theorem mem_helped_of_stable (harena : game.arena.Closed store) {j k : Nat} (hjk : j ≤ k)
    (hstable : ∀ s : List Bool, s.length = game.arena.stateVars.length →
      s ∈ helped game store goal space (j + 1) → s ∈ helped game store goal space j)
    {s : List Bool} (hs : s.length = game.arena.stateVars.length)
    (hmem : s ∈ helped game store goal space k) : s ∈ helped game store goal space j := by
  induction k, hjk using Nat.le_induction generalizing s with
  | base => exact hmem
  | succ k hjk ih =>
    obtain hmem | ⟨X, Y, hspace, hnext⟩ := hmem
    · exact ih hs hmem
    · exact hstable s hs (.inr ⟨X, Y, hspace, ih (Automaton.successor_length harena) hnext⟩)

end Sets

variable {game : Game} {store : Store} {goal space : Edge} {s : List Bool} {X Y : Valuation}
  (h : game.Closed store goal space)

/-- A move of the protagonist that is safe and assisted is safe together with the assistance. -/
theorem Closed.exists_assists_iff (h : game.Closed store goal space)
    (hs : s.length = game.arena.stateVars.length) (W : Set (List Bool)) :
    (∃ X Y, game.arena.Holds store space s X Y ∧ assists game store W s X Y) ↔
      ∃ X Y, game.arena.Holds store space s X Y ∧ game.arena.successor store s X Y ∈ W := by
  have hspaces := h.holds_opponent h.space_over hs
  unfold assists
  cases hprot : game.protagonist <;> simp only [hprot] at hspaces ⊢
  · constructor
    · rintro ⟨X, Y, hspace, X', hnext⟩
      exact ⟨X', Y, (hspaces X X' Y).1 hspace, hnext⟩
    · exact fun ⟨X, Y, hspace, hnext⟩ => ⟨X, Y, hspace, X, hnext⟩
  · constructor
    · rintro ⟨X, Y, hspace, Y', hnext⟩
      exact ⟨X, Y', (hspaces X Y Y').1 hspace, hnext⟩
    · exact fun ⟨X, Y, hspace, hnext⟩ => ⟨X, Y, hspace, Y, hnext⟩

variable (hone : game.constraint = .one)

theorem holds_constraint (hone : game.constraint = .one) (s : List Bool) (X Y : Valuation) :
    game.arena.Holds store game.constraint s X Y := by
  rw [Automaton.Holds, hone, Store.eval_one]

theorem preimageOf_iff_assists (harena : game.arena.Closed store) (hone : game.constraint = .one)
    {W : MoveSet} {V : Set (List Bool)}
    (hW : ∀ t : List Bool, t.length = game.arena.stateVars.length → ∀ X Y, W t X Y ↔ t ∈ V) :
    preimageOf game store .cooperative W s X Y ↔ assists game store V s X Y := by
  have hnext : ∀ X Y, W (game.arena.successor store s X Y) X Y ↔
      game.arena.successor store s X Y ∈ V := fun X Y =>
    hW _ (Automaton.successor_length harena) X Y
  unfold preimageOf assists
  cases game.protagonist <;> simp only [hnext, holds_constraint hone, true_and]

/-- The states found are those of the moves found, from the first moves on. -/
theorem statesAfter_cooperative_iff (hone : game.constraint = .one) (k : Nat) :
    statesAfter game store .cooperative goal space k s X Y ↔
      ∃ X Y, movesAfter game store .cooperative goal space k s X Y := by
  cases k with
  | zero => rfl
  | succ k =>
    change (∃ Y X, game.arena.Holds store game.constraint s X Y ∧ _) ↔ _
    simp only [holds_constraint hone, true_and]
    exact exists_comm

include h hone

theorem Closed.exists_movesAfter_iff (k : Nat) :
    ∀ s : List Bool, s.length = game.arena.stateVars.length →
      ((∃ X Y, movesAfter game store .cooperative goal space k s X Y) ↔
        s ∈ helped game store goal space k) := by
  induction k with
  | zero => exact fun s _ => Iff.rfl
  | succ k ih =>
    intro s hs
    have hstates : ∀ t : List Bool, t.length = game.arena.stateVars.length → ∀ X Y,
        statesAfter game store .cooperative goal space k t X Y ↔
          t ∈ helped game store goal space k := fun t ht X Y =>
      (statesAfter_cooperative_iff hone k).trans (ih t ht)
    have hmoves : ∀ X Y, movesAfter game store .cooperative goal space (k + 1) s X Y ↔
        movesAfter game store .cooperative goal space k s X Y ∨
          (game.arena.Holds store space s X Y ∧ s ∉ helped game store goal space k) ∧
            assists game store (helped game store goal space k) s X Y := fun X Y =>
      or_congr_right (and_congr (and_congr_right' (not_congr (hstates s hs X Y)))
        (preimageOf_iff_assists h.arena hone hstates))
    have hassists := h.exists_assists_iff hs (helped game store goal space k)
    by_cases hmem : s ∈ helped game store goal space k
    · refine iff_of_true ?_ (.inl hmem)
      obtain ⟨X, Y, hXY⟩ := (ih s hs).2 hmem
      exact ⟨X, Y, (hmoves X Y).2 (.inl hXY)⟩
    · constructor
      · rintro ⟨X, Y, hXY⟩
        obtain hold | ⟨⟨hspace, -⟩, hassist⟩ := (hmoves X Y).1 hXY
        · exact absurd ((ih s hs).1 ⟨X, Y, hold⟩) hmem
        · exact .inr (hassists.1 ⟨X, Y, hspace, hassist⟩)
      · intro hnew
        obtain ⟨X, Y, hspace, hassist⟩ := hassists.2 (hnew.resolve_left hmem)
        exact ⟨X, Y, (hmoves X Y).2 (.inr ⟨⟨hspace, hmem⟩, hassist⟩)⟩

/-- The states found with help are those from which both players together reach the goal. -/
theorem Closed.statesAfter_iff_helped (k : Nat) (hs : s.length = game.arena.stateVars.length) :
    statesAfter game store .cooperative goal space k s X Y ↔
      s ∈ helped game store goal space k :=
  (statesAfter_cooperative_iff hone k).trans (h.exists_movesAfter_iff hone k s hs)

theorem Closed.movesAfter_succ_iff (k : Nat) (hs : s.length = game.arena.stateVars.length) :
    movesAfter game store .cooperative goal space (k + 1) s X Y ↔
      movesAfter game store .cooperative goal space k s X Y ∨
        (game.arena.Holds store space s X Y ∧ s ∉ helped game store goal space k) ∧
          assists game store (helped game store goal space k) s X Y :=
  or_congr_right (and_congr (and_congr_right' (not_congr (h.statesAfter_iff_helped hone k hs)))
    (preimageOf_iff_assists h.arena hone fun _ ht _ _ => h.statesAfter_iff_helped hone k ht))

/-- In a state that is new, the moves found are the safe ones that lead into the states found
before by some answer. -/
theorem Closed.movesAfter_of_not_mem {k : Nat} (hs : s.length = game.arena.stateVars.length)
    (hnot : s ∉ helped game store goal space k) :
    movesAfter game store .cooperative goal space (k + 1) s X Y ↔
      game.arena.Holds store space s X Y ∧
        assists game store (helped game store goal space k) s X Y := by
  rw [h.movesAfter_succ_iff hone k hs]
  constructor
  · rintro (hold | ⟨⟨hspace, -⟩, hassist⟩)
    · exact absurd ((h.exists_movesAfter_iff hone k s hs).1 ⟨X, Y, hold⟩) hnot
    · exact ⟨hspace, hassist⟩
  · exact fun ⟨hspace, hassist⟩ => .inr ⟨⟨hspace, hnot⟩, hassist⟩

/-- The moves found for a state are those found when the state was new. -/
theorem Closed.movesAfter_of_mem {j k : Nat} (hjk : j ≤ k)
    (hs : s.length = game.arena.stateVars.length) (hmem : s ∈ helped game store goal space j) :
    movesAfter game store .cooperative goal space k s X Y ↔
      movesAfter game store .cooperative goal space j s X Y := by
  induction k, hjk using Nat.le_induction with
  | base => rfl
  | succ k hjk ih =>
    rw [h.movesAfter_succ_iff hone k hs, ih]
    exact or_iff_left fun hnew => hnew.1.2 (helped_mono hjk hmem)

/-- An agent who is helped chooses without seeing the inputs. -/
theorem Closed.unseeing_cooperative (hprot : game.protagonist = .agent) (k : Nat) :
    Unseeing game store .cooperative goal space k := by
  intro s hs X X' Y
  have hspace := h.holds_opponent h.space_over hs
  have hgoal := h.holds_opponent h.goal_over hs
  simp only [hprot] at hspace hgoal
  induction k with
  | zero =>
    unfold movesAfter
    rw [hspace X X' Y, hgoal X X' Y]
  | succ k ih =>
    rw [h.movesAfter_succ_iff hone k hs, h.movesAfter_succ_iff hone k hs]
    refine or_congr ih (and_congr (and_congr_left' (hspace X X' Y)) ?_)
    simp only [assists, hprot]

/-- The search ends with a step if it finds the initial state, or no state at all that is new. -/
theorem Closed.halts_cooperative_iff (k : Nat) :
    Halts game store .cooperative goal space k ↔
      game.arena.initial ∈ helped game store goal space (k + 1) ∨
        ∀ s : List Bool, s.length = game.arena.stateVars.length →
          s ∈ helped game store goal space (k + 1) → s ∈ helped game store goal space k := by
  refine or_congr (h.statesAfter_iff_helped hone _ h.arena.initial_length)
    ⟨fun hsame s hs hmem => ?_, fun hstable a => ?_⟩
  · obtain ⟨a, rfl⟩ := Valuation.exists_map_eq h.arena.stateVars_nodup hs
    exact (h.statesAfter_iff_helped hone k hs).1
      ((hsame a).1 ((h.statesAfter_iff_helped hone (k + 1) hs).2 hmem))
  · have ha := game.arena.stateOf_length a
    rw [h.statesAfter_iff_helped hone _ ha, h.statesAfter_iff_helped hone _ ha]
    exact ⟨hstable _ ha, .inl⟩

end PlanningGame.Game
