import Mathlib
import PlanningGame.Proofs.Game.Play

/-!
# The strategy of a constrained environment

The constraint of a game says which moves of the environment are considered where states are read
off the moves found. The strategy of the environment is extracted from the moves found themselves,
and these need not satisfy the constraint. Of the inputs found for a state and a move of the agent
it takes the one that no other outdoes, whether that input is considered or not.
-/
namespace PlanningGame.Game

open Diagram

variable {game : Game} {store later : Store} {attitude : Attitude} {goal space : Edge}
  {solution : Solution} {s : List Bool} {o X X' : Valuation}

/-- An input of the given moves that no other input of them outdoes. -/
def Foremost (game : Game) (store : Store) (moves : Edge) (s : List Bool) (X o : Valuation) :
    Prop :=
  game.arena.Holds store moves s X o ∧
    ∀ X', game.arena.Holds store moves s X' o → ¬ X'.Outdoes X game.arena.inputs

/-- There is one foremost input at most. -/
theorem Foremost.eq {moves : Edge} (hX : Foremost game store moves s X o)
    (hX' : Foremost game store moves s X' o) : ∀ v ∈ game.arena.inputs, X v = X' v := by
  rcases Valuation.outdoes_or_eq X X' game.arena.inputs with houtdoes | houtdoes | heq
  · exact absurd houtdoes (hX'.2 X hX.1)
  · exact absurd houtdoes (hX.2 X' hX'.1)
  · exact heq

/-- The strategy of the environment gives the foremost of the inputs found, if there are any. -/
theorem Answered.exists_foremost
    (hanswer : Answered store later game attitude goal space solution)
    (harena : game.arena.Closed store) (hprot : game.protagonist = .environment)
    (hlength : s.length = game.arena.stateVars.length)
    (hfound : ∃ X, game.arena.Holds later solution.winningMoves s X o) :
    ∃ full, solution.strategy.move later s o = .ok full ∧ game.arena.stateOf full = s ∧
      (∀ v ∈ game.arena.outputs, full v = o v) ∧
      Foremost game later solution.winningMoves s full o := by
  have hvars : game.protagonistVars = game.arena.inputs := by
    simp only [protagonistVars, Player.vars, hprot]
  have hreads : game.arena.Reads
      (movesAfter game store attitude goal space solution.iterations) := reads_movesAfter _
  have hmoves : ∀ X, game.arena.Holds later solution.winningMoves s X o ↔
      movesAfter game store attitude goal space solution.iterations s X o := fun X =>
    hanswer.moves.holds_iff hreads harena hlength
  have hstate := stateOf_valuation harena hlength o
  have hgiven : ∀ v ∈ game.arena.outputs, game.arena.valuation s o v = o v := fun v hv =>
    Valuation.assign_of_not_mem (fun hmem => harena.not_mem_outputs hmem hv) _ _
  have hfull := stateOf_followed harena hlength later solution.strategy.functions o
  have hmove := hanswer.chooses.move_eq (o := o) harena hanswer.arena hlength
  have hchooses := hanswer.chooses
  rw [hvars] at hchooses hmove hfull
  -- outputs are not the environment's to choose
  have houtputs : ∀ v ∈ game.arena.outputs, followed later solution.strategy.functions
      game.arena.inputs (game.arena.valuation s o) v = o v := fun v hv => by
    rw [followed, if_neg fun hin => harena.inputs_not_mem_outputs hin hv, hgiven v hv]
  refine ⟨_, hmove, hfull, houtputs, ?_, fun X' hX' houtdoes => ?_⟩
  · have hchosen := hchooses.chosen (game.arena.valuation s o) ?_
    · rw [hfull] at hchosen
      rw [hmoves]
      exact (hreads _ _ _ _ _ (fun _ _ => rfl) houtputs).1 hchosen
    · obtain ⟨X, hX⟩ := hfound
      rw [harena.exists_inputs hreads, hstate]
      exact ⟨X, (hreads _ _ _ _ _ (fun _ _ => rfl) hgiven).2 ((hmoves X).1 hX)⟩
  · -- the other input as a change of the given move
    have hvaries := Automaton.variesOn_ite game.arena.inputs (game.arena.valuation s o) X'
    have hinputs : ∀ v ∈ game.arena.inputs,
        X' v = if v ∈ game.arena.inputs then X' v else game.arena.valuation s o v :=
      fun v hv => (if_pos hv).symm
    refine hchooses.greatest _ _ hvaries ?_ (houtdoes.congr hinputs fun _ _ => rfl)
    rw [harena.stateOf_of_variesOn (List.subset_append_left _ _) hvaries, hstate]
    refine (hreads _ _ _ _ _ hinputs fun v hv => ?_).1 ((hmoves X').1 hX')
    rw [if_neg fun hin => harena.inputs_not_mem_outputs hin hv, hgiven v hv]

/-- In a state with a considered input among the moves found, the strategy of the environment gives
an input found. It is a considered one exactly if the foremost input found is considered. -/
theorem legal_iff_exists_foremost (hs : store.Sound) (h : game.Readable store goal space)
    (hprot : game.protagonist = .environment)
    (hrun : (game.solve attitude goal space).run.run store = (.ok solution, later))
    (hlength : s.length = game.arena.stateVars.length)
    (hlegal : ∃ X, game.arena.Holds later game.constraint s X o ∧
      game.arena.Holds later solution.winningMoves s X o) :
    ∃ full, solution.strategy.move later s o = .ok full ∧
      later.eval solution.winningMoves full = true ∧
      (later.eval game.constraint full = true ↔
        ∃ X, game.arena.Holds later game.constraint s X o ∧
          Foremost game later solution.winningMoves s X o) := by
  obtain ⟨hlater, hle, hanswer⟩ := yields_search hs h solution later hrun
  obtain ⟨full, hmove, hstate, houtputs, hforemost⟩ :=
    hanswer.exists_foremost h.arena hprot hlength (hlegal.imp fun _ hX => hX.2)
  have hwinning : later.eval solution.winningMoves full = true := by
    rw [hanswer.moves.eval_iff, hstate]
    refine (reads_movesAfter _ _ _ _ _ _ (fun _ _ => rfl) houtputs).2 ?_
    exact (hanswer.moves.holds_iff (reads_movesAfter _) h.arena hlength).1 hforemost.1
  have hconstraint : later.eval game.constraint full = true ↔
      game.arena.Holds later game.constraint s full o := by
    have hover := h.constraint_over.mono hs.toReduced hle
    rw [← Automaton.holds_stateOf hover, hstate]
    exact Automaton.holds_congr (fun _ _ => rfl) houtputs
  refine ⟨full, hmove, hwinning, hconstraint.trans ⟨fun hX => ⟨full, hX, hforemost⟩, ?_⟩⟩
  rintro ⟨X, hX, hXforemost⟩
  exact (Automaton.holds_congr (hXforemost.eq hforemost) fun _ _ => rfl).1 hX

/-- The game of an environment that moves first, wants anything at all and may give the considered
inputs only. -/
def idleGame (constraint : Edge) : Game :=
  { copyGame with starting := .environment, protagonist := .environment, constraint }

theorem over_input : copySession.store.Over [1, 2] ⟨3, true, by decide⟩ :=
  copySession_valid.sound.toReduced.over_of_node
    (copySession_valid.has ⟨3, false, by decide⟩ (by decide +kernel)) (by decide +kernel)

theorem idleGame_readable :
    (idleGame ⟨3, true, by decide⟩).Readable copySession.store .one .one where
  arena := copyGame_closed.arena
  goal_over := copySession_valid.sound.over_one
  space_over := copySession_valid.sound.over_one
  constraint_over := over_input.subset (by decide)

/-- If only false inputs are considered then the input given is considered exactly if the foremost
one is. -/
theorem idleGame_legal_iff :
    ∃ solution later, copySession.store.Sound ∧
      (idleGame ⟨3, true, by decide⟩).Readable copySession.store .one .one ∧
      ((idleGame ⟨3, true, by decide⟩).solve .adversarial .one .one).run.run copySession.store =
        (.ok solution, later) ∧
      (∃ X, copyGame.arena.Holds later ⟨3, true, by decide⟩ [false] X (fun _ => false) ∧
        copyGame.arena.Holds later solution.winningMoves [false] X (fun _ => false)) ∧
      ∃ full, solution.strategy.move later [false] (fun _ => false) = .ok full ∧
        later.eval solution.winningMoves full = true ∧
        (later.eval ⟨3, true, by decide⟩ full = true ↔
          ∃ X, copyGame.arena.Holds later ⟨3, true, by decide⟩ [false] X (fun _ => false) ∧
            Foremost (idleGame ⟨3, true, by decide⟩) later solution.winningMoves [false] X
              (fun _ => false)) := by
  have hok : answersWith ((idleGame ⟨3, true, by decide⟩).solve .adversarial .one .one)
      copySession.store (fun solution later =>
        let idle := copyGame.arena.joint [false] (fun _ => false) (fun _ => false)
        later.eval ⟨3, true, by decide⟩ idle && later.eval solution.winningMoves idle) = true := by
    cbv
  obtain ⟨solution, later, hrun, hidle⟩ := exists_run_of_answersWith hok
  have hlegal := Bool.and_eq_true_iff.1 hidle
  exact ⟨solution, later, copySession_valid.sound, idleGame_readable, hrun, ⟨_, hlegal⟩,
    legal_iff_exists_foremost copySession_valid.sound idleGame_readable rfl hrun rfl ⟨_, hlegal⟩⟩

/-- There the false input is a considered one among the moves found. The strategy gives the other
one. -/
theorem exists_illegal_choice :
    ∃ (store later : Store) (game : Game) (goal space : Edge) (solution : Solution)
      (s : List Bool) (o full : Valuation), store.Sound ∧ game.Readable store goal space ∧
        game.starting = .environment ∧ game.protagonist = .environment ∧
        store.Over (game.arena.stateVars ++ game.arena.inputs) game.constraint ∧
        (game.solve .adversarial goal space).run.run store = (.ok solution, later) ∧
        s.length = game.arena.stateVars.length ∧
        (∃ X, game.arena.Holds later game.constraint s X o ∧
          game.arena.Holds later solution.winningMoves s X o) ∧
        solution.strategy.move later s o = .ok full ∧
        later.eval game.constraint full = false := by
  let game := idleGame ⟨3, true, by decide⟩
  have hok : answersWith (game.solve .adversarial .one .one) copySession.store
      (fun solution later =>
        let idle := game.arena.joint [false] (fun _ => false) (fun _ => false)
        (later.eval game.constraint idle && later.eval solution.winningMoves idle) &&
          (solution.strategy.move later [false] fun _ => false).toOption.any fun full =>
            !later.eval game.constraint full) = true := by cbv
  obtain ⟨solution, later, hrun, hchoice⟩ := exists_run_of_answersWith hok
  rw [Bool.and_eq_true, Bool.and_eq_true, Option.any_eq_true] at hchoice
  obtain ⟨hidle, full, hmove, hillegal⟩ := hchoice
  refine ⟨copySession.store, later, game, .one, .one, solution, [false], fun _ => false, full,
    copySession_valid.sound, idleGame_readable, rfl, rfl, over_input.subset (by decide), hrun, rfl,
    ⟨_, hidle⟩, ?_, by simpa using hillegal⟩
  cases hresult : solution.strategy.move later [false] fun _ => false with
  | ok given => exact congrArg _ (by simpa [hresult, Except.toOption] using hmove)
  | error _ => simp [hresult, Except.toOption] at hmove

end PlanningGame.Game
