import Mathlib
import PlanningGame.Proofs.Game.Cooperation

/-!
# Shortest plays of both players

With the help of the opponent the protagonist wins exactly if some play of both leads to the goal by
safe moves. The search takes as many iterations as the shortest of these plays has steps, one at
least. If there is no such play from the initial state, then the search ends with all states from
which there is one.
-/
namespace PlanningGame.Game

/-- There is a play with so many steps in which all moves are safe and the last state has a move to
the goal. The last move is not made. -/
inductive ReachesIn (game : Game) (store : Store) (goal space : Edge) : Nat → List Bool → Prop
  | goal {s : List Bool} {X Y : Valuation} (hspace : game.arena.Holds store space s X Y)
      (hgoal : game.arena.Holds store goal s X Y) : ReachesIn game store goal space 0 s
  | step {n : Nat} {s : List Bool} {X Y : Valuation} (hspace : game.arena.Holds store space s X Y)
      (hrest : ReachesIn game store goal space n (game.arena.successor store s X Y)) :
      ReachesIn game store goal space (n + 1) s

variable {game : Game} {store later : Store} {goal space : Edge} {solution : Solution}
  {s : List Bool}

/-- The states that are helped by a number of steps are those with a play of at most so many. -/
theorem mem_helped_iff_reachesIn {k : Nat} :
    s ∈ helped game store goal space k ↔ ∃ n ≤ k, ReachesIn game store goal space n s := by
  constructor
  · intro hmem
    induction k generalizing s with
    | zero =>
      obtain ⟨X, Y, hspace, hgoal⟩ := hmem
      exact ⟨0, le_rfl, .goal hspace hgoal⟩
    | succ k ih =>
      rcases hmem with hold | ⟨X, Y, hspace, hnext⟩
      · obtain ⟨n, hn, hreach⟩ := ih hold
        exact ⟨n, by omega, hreach⟩
      · obtain ⟨n, hn, hreach⟩ := ih hnext
        exact ⟨n + 1, by omega, .step hspace hreach⟩
  · rintro ⟨n, hn, hreach⟩
    refine helped_mono hn ?_
    clear hn
    induction hreach with
    | goal hspace hgoal => exact ⟨_, _, hspace, hgoal⟩
    | step hspace _ ih => exact .inr ⟨_, _, hspace, ih⟩

/-- After the last iteration, the initial state is helped if it is by any number of steps, and if it
is not then no further state is. -/
theorem Closed.mem_helped_of_ends (h : game.Closed store goal space) (hone : game.constraint = .one)
    {k n : Nat} (hhalts : Halts game store .cooperative goal space k)
    (hs : s.length = game.arena.stateVars.length)
    (hcase : s = game.arena.initial ∨ game.arena.initial ∉ helped game store goal space (k + 1))
    (hmem : s ∈ helped game store goal space n) : s ∈ helped game store goal space (k + 1) := by
  rcases (h.halts_cooperative_iff hone k).1 hhalts with hfound | hstable
  · rcases hcase with rfl | hnot
    · exact hfound
    · exact absurd hfound hnot
  · refine helped_mono (Nat.le_succ k) ?_
    exact mem_helped_of_stable h.arena (Nat.le_max_left k n) hstable hs
      (helped_mono (Nat.le_max_right k n) hmem)

/-- With help the initial state is found exactly if it is helped by any number of steps. -/
theorem Answered.realizable_iff_exists_helped (h : game.Closed store goal space)
    (hone : game.constraint = .one)
    (hanswer : Answered store later game .cooperative goal space solution) :
    solution.realizable = true ↔ ∃ n, game.arena.initial ∈ helped game store goal space n := by
  obtain ⟨k, hk, hhalts, -⟩ := hanswer.ends
  rw [hanswer.realizable, hk, h.statesAfter_iff_helped hone _ h.arena.initial_length]
  exact ⟨fun hmem => ⟨_, hmem⟩, fun ⟨_, hmem⟩ =>
    h.mem_helped_of_ends hone hhalts h.arena.initial_length (.inl rfl) hmem⟩

/-- A game with a helping opponent is realizable exactly if there is a play of both to the goal. It
then takes as many iterations as the shortest one has steps, one at least. The winning states of a
game that is not realizable are those from which there is a play to the goal. -/
theorem solve_cooperative_shortest (hs : store.Sound) (h : game.Closed store goal space)
    (hone : game.constraint = .one)
    (hrun : (game.solve .cooperative goal space).run.run store = (.ok solution, later)) :
    (solution.realizable = true ↔ ∃ n, ReachesIn game store goal space n game.arena.initial) ∧
      (∀ n, IsLeast {n | ReachesIn game store goal space n game.arena.initial} n →
        solution.iterations = max 1 n) ∧
      (solution.realizable = false → ∀ a, later.eval solution.winningStates a = true ↔
        ∃ n, ReachesIn game store goal space n (game.arena.stateOf a)) := by
  obtain ⟨-, -, hanswer⟩ := yields_search hs h.readable solution later hrun
  obtain ⟨k, hk, hhalts, hnot⟩ := hanswer.ends
  have hrealizable : solution.realizable = true ↔
      game.arena.initial ∈ helped game store goal space (k + 1) := by
    rw [hanswer.realizable, hk]
    exact h.statesAfter_iff_helped hone _ h.arena.initial_length
  have hplay : ∀ {s : List Bool}, s.length = game.arena.stateVars.length →
      (s = game.arena.initial ∨ game.arena.initial ∉ helped game store goal space (k + 1)) →
        (s ∈ helped game store goal space (k + 1) ↔
          ∃ n, ReachesIn game store goal space n s) := by
    intro s hlength hcase
    refine ⟨fun hmem => ?_, fun ⟨n, hreach⟩ => ?_⟩
    · obtain ⟨n, -, hreach⟩ := mem_helped_iff_reachesIn.1 hmem
      exact ⟨n, hreach⟩
    · exact h.mem_helped_of_ends hone hhalts hlength hcase
        (mem_helped_iff_reachesIn.2 ⟨n, le_rfl, hreach⟩)
  have hinitial := hplay h.arena.initial_length (.inl rfl)
  refine ⟨hrealizable.trans hinitial, fun n hleast => ?_, fun hfalse a => ?_⟩
  · obtain ⟨m, hm, hreach⟩ := mem_helped_iff_reachesIn.1 (hinitial.2 ⟨n, hleast.1⟩)
    have hle : n ≤ k + 1 := (hleast.2 hreach).trans hm
    -- the iteration before did not find the initial state
    have hlt : k = 0 ∨ k < n := by
      rcases Nat.eq_zero_or_pos k with hzero | hpos
      · exact .inl hzero
      refine .inr (Nat.not_le.1 fun hnk => hnot (k - 1) (by omega) ?_)
      refine (h.halts_cooperative_iff hone _).2 (.inl (mem_helped_iff_reachesIn.2 ?_))
      exact ⟨n, by omega, hleast.1⟩
    omega
  · have hunfound : game.arena.initial ∉ helped game store goal space (k + 1) := fun hmem => by
      simp [hrealizable.2 hmem] at hfalse
    rw [hanswer.states.eval_iff, hk, h.statesAfter_iff_helped hone _ (game.arena.stateOf_length a)]
    exact hplay (game.arena.stateOf_length a) (.inr hunfound)

/-- Together with the environment the agent makes the state bit true in one iteration. -/
theorem copyGame_shortest :
    ∃ solution later n, copySession.store.Sound ∧
      copyGame.Closed copySession.store ⟨2, false, by decide⟩ .one ∧ copyGame.constraint = .one ∧
      (copyGame.solve .cooperative ⟨2, false, by decide⟩ .one).run.run copySession.store =
        (.ok solution, later) ∧
      IsLeast {n | ReachesIn copyGame copySession.store ⟨2, false, by decide⟩ .one n [false]} n ∧
      solution.iterations = max 1 n := by
  have hok : answersWith (copyGame.solve .cooperative ⟨2, false, by decide⟩ .one)
      copySession.store (fun solution _ => solution.realizable) = true := by cbv
  obtain ⟨solution, later, hrun, hreal⟩ := exists_run_of_answersWith hok
  obtain ⟨hrealizable, hiterations, -⟩ :=
    solve_cooperative_shortest copySession_valid.sound copyGame_closed rfl hrun
  have hreach := hrealizable.1 hreal
  obtain ⟨n, hleast⟩ : ∃ n, IsLeast
      {n | ReachesIn copyGame copySession.store ⟨2, false, by decide⟩ .one n [false]} n :=
    open Classical in ⟨Nat.find hreach, Nat.find_spec hreach, fun _ => Nat.find_min' hreach⟩
  exact ⟨solution, later, n, copySession_valid.sound, copyGame_closed, rfl, hrun, hleast,
    hiterations n hleast⟩

end PlanningGame.Game
