import Mathlib
import PlanningGame.Proofs.Game.Cooperation
import PlanningGame.Proofs.Game.Layers

/-!
# Games that are easier to win

An opponent who helps is better than one who does not, and a move of the opponent that is seen is
better than one that is not. In both cases each layer of the harder game is within the layer of the
easier one. The moves of the two searches cannot be compared: only states that are new get new
moves, and a state may be new in the harder game when it is not in the easier one.
-/
namespace PlanningGame.Game

open Diagram

variable {game : Game} {store start start' later later' : Store} {attitude : Attitude}
  {goal space : Edge} {solution solution' : Solution} {W V M : MoveSet} {s : List Bool}
  {X Y : Valuation}

section Help

variable (hone : game.constraint = .one)

theorem preimageOf_mono (hWV : ∀ X Y, W (game.arena.successor store s X Y) X Y →
      V (game.arena.successor store s X Y) X Y)
    (h : preimageOf game store attitude W s X Y) : preimageOf game store attitude V s X Y := by
  unfold preimageOf at h ⊢
  split at h
  · exact fun X hX => hWV X Y (h X hX)
  · exact fun Y => hWV X Y (h Y)
  · exact hWV X Y h
  · exact h.imp fun X hX => hX.imp_right (hWV X Y)
  · exact h.imp fun Y hY => hWV X Y hY

include hone

/-- What leads into some states whatever the opponent answers leads there by some answer. -/
theorem preimageOf_cooperative_of_adversarial (h : preimageOf game store .adversarial W s X Y) :
    preimageOf game store .cooperative W s X Y := by
  have hnext : W (game.arena.successor store s X Y) X Y := by
    unfold preimageOf at h
    cases hstart : game.starting <;> cases hprot : game.protagonist <;>
      simp only [hstart, hprot] at h
    · exact h X (holds_constraint hone s X Y)
    · exact h
    · exact h
    · exact h Y
  unfold preimageOf
  cases game.protagonist
  · exact ⟨X, holds_constraint hone s X Y, hnext⟩
  · exact ⟨Y, hnext⟩

/-- States are read off moves. -/
theorem exists_of_statesOf_adversarial {k : Nat}
    (h : statesOf game store .adversarial k M s X Y) : ∃ X Y, M s X Y := by
  cases k with
  | zero => exact h
  | succ k =>
    change projectionOf game store .adversarial M s X Y at h
    unfold projectionOf at h
    cases hstart : game.starting <;> cases hprot : game.protagonist <;>
      simp only [hstart, hprot] at h
    · exact ⟨X, h⟩
    · obtain ⟨X, -, hM⟩ := h Y
      exact ⟨X, Y, hM⟩
    · exact ⟨X, h X (holds_constraint hone s X Y)⟩
    · obtain ⟨X, -, hM⟩ := h
      exact ⟨X, Y, hM⟩

theorem statesAfter_cooperative_congr (k : Nat) (X Y X' Y' : Valuation) :
    statesAfter game store .cooperative goal space k s X Y ↔
      statesAfter game store .cooperative goal space k s X' Y' :=
  (statesAfter_cooperative_iff hone k).trans (statesAfter_cooperative_iff hone k).symm

/-- With help, an iteration adds the states with a safe move that leads into the states found
before. -/
theorem statesAfter_cooperative_succ_iff (k : Nat) :
    statesAfter game store .cooperative goal space (k + 1) s X Y ↔
      statesAfter game store .cooperative goal space k s X Y ∨
        ∃ X Y, game.arena.Holds store space s X Y ∧
          preimageOf game store .cooperative (statesAfter game store .cooperative goal space k)
            s X Y := by
  rw [statesAfter_cooperative_iff hone (k + 1)]
  constructor
  · rintro ⟨X', Y', hold | ⟨⟨hspace, -⟩, hleads⟩⟩
    · exact .inl ((statesAfter_cooperative_iff hone k).2 ⟨X', Y', hold⟩)
    · exact .inr ⟨X', Y', hspace, hleads⟩
  · by_cases hmem : statesAfter game store .cooperative goal space k s X Y
    · intro _
      obtain ⟨X', Y', hold⟩ := (statesAfter_cooperative_iff hone k).1 hmem
      exact ⟨X', Y', .inl hold⟩
    · rintro (h | ⟨X', Y', hspace, hleads⟩)
      · exact absurd h hmem
      · have hnew := mt (statesAfter_cooperative_congr hone k X' Y' X Y).1 hmem
        exact ⟨X', Y', .inr ⟨⟨hspace, hnew⟩, hleads⟩⟩

/-- Every move that is found against the opponent is from a state that is found with help. -/
theorem statesAfter_cooperative_of_movesAfter (k : Nat) :
    ∀ s X Y, movesAfter game store .adversarial goal space k s X Y →
      statesAfter game store .cooperative goal space k s X Y := by
  induction k with
  | zero => exact fun s X Y h => ⟨X, Y, h⟩
  | succ k ih =>
    intro s X Y h
    rw [statesAfter_cooperative_succ_iff hone]
    rcases h with hold | ⟨⟨hspace, -⟩, hleads⟩
    · exact .inl (ih s X Y hold)
    · refine .inr ⟨X, Y, hspace, preimageOf_mono (fun X Y h => ?_)
        (preimageOf_cooperative_of_adversarial hone hleads)⟩
      obtain ⟨X', Y', hmove⟩ := exists_of_statesOf_adversarial hone h
      exact (statesAfter_cooperative_congr hone k X' Y' X Y).1 (ih _ X' Y' hmove)

/-- The states found against the opponent are found with help. -/
theorem statesAfter_cooperative_of_adversarial (k : Nat)
    (h : statesAfter game store .adversarial goal space k s X Y) :
    statesAfter game store .cooperative goal space k s X Y := by
  obtain ⟨X', Y', hmove⟩ := exists_of_statesOf_adversarial hone h
  exact (statesAfter_cooperative_congr hone k X' Y' X Y).1
    (statesAfter_cooperative_of_movesAfter hone k s X' Y' hmove)

/-- If no state is new after one more iteration then none is after any number of them. -/
theorem statesAfter_cooperative_of_stable (harena : game.arena.Closed store) {j k : Nat}
    (hjk : j ≤ k) (hstable : ∀ a : Valuation,
      statesAfter game store .cooperative goal space (j + 1) (game.arena.stateOf a) a a ↔
        statesAfter game store .cooperative goal space j (game.arena.stateOf a) a a) :
    ∀ s : List Bool, s.length = game.arena.stateVars.length → ∀ X Y,
      statesAfter game store .cooperative goal space k s X Y →
        statesAfter game store .cooperative goal space j s X Y := by
  induction k, hjk using Nat.le_induction with
  | base => exact fun _ _ _ _ h => h
  | succ k _ ih =>
    intro s hs X Y h
    rw [statesAfter_cooperative_succ_iff hone] at h
    rcases h with h | ⟨X', Y', hspace, hleads⟩
    · exact ih s hs X Y h
    · have hnew : statesAfter game store .cooperative goal space (j + 1) s X Y :=
        (statesAfter_cooperative_succ_iff hone j).2 (.inr ⟨X', Y', hspace, preimageOf_mono
          (fun X Y => ih _ (Automaton.successor_length harena) X Y) hleads⟩)
      obtain ⟨a, rfl⟩ := Valuation.exists_map_eq harena.stateVars_nodup hs
      refine (statesAfter_cooperative_congr hone j a a X Y).1 ((hstable a).1 ?_)
      exact (statesAfter_cooperative_congr hone (j + 1) X Y a a).1 hnew

/-- A search with help finds the initial state as soon as any search with help does. -/
theorem Answered.realizable_of_statesAfter (harena : game.arena.Closed store)
    (hanswer : Answered store later game .cooperative goal space solution) {n : Nat}
    (hn : statesAfter game store .cooperative goal space (n + 1) game.arena.initial
      (fun _ => false) fun _ => false) :
    solution.realizable = true ∧ solution.iterations ≤ n + 1 := by
  obtain ⟨k, hk, hhalts, hnot⟩ := hanswer.ends
  have hkn : k ≤ n := Nat.not_lt.1 fun hlt => hnot n hlt (.inl hn)
  refine ⟨?_, by omega⟩
  rw [hanswer.realizable, hk]
  rcases hhalts with hinitial | hstable
  · exact hinitial
  · have hfound := statesAfter_cooperative_of_stable hone harena (hkn.trans (Nat.le_succ n)) hstable
      _ harena.initial_length _ _ hn
    exact (statesAfter_cooperative_succ_iff hone k).2 (.inl hfound)

/-- If a game is realizable against the opponent then it is with help, within as many iterations.
Each layer of the first search implies the layer of the same number of the second. -/
theorem cooperative_of_adversarial (hr : store.Reduced) (h : game.Readable store goal space)
    (hs : start.Sound) (hle : store ≤ start) (hs' : start'.Sound) (hle' : store ≤ start')
    (hrun : (game.solve .adversarial goal space).run.run start = (.ok solution, later))
    (hrun' : (game.solve .cooperative goal space).run.run start' = (.ok solution', later')) :
    (solution.realizable = true →
      solution'.realizable = true ∧ solution'.iterations ≤ solution.iterations) ∧
    ∀ (i : Nat) (e e' : Edge), solution.layers[i]? = some e → solution'.layers[i]? = some e' →
      ∀ a, later.eval e a = true → later'.eval e' a = true := by
  obtain ⟨-, -, hanswer⟩ := (concludes_search_of_le hs hr hle h).yields solution later hrun
  obtain ⟨-, -, hanswer'⟩ := (concludes_search_of_le hs' hr hle' h).yields solution' later' hrun'
  constructor
  · intro hrealizable
    obtain ⟨k, hk, -, -⟩ := hanswer.ends
    have hinitial := hanswer.realizable.1 hrealizable
    rw [hk] at hinitial ⊢
    exact hanswer'.realizable_of_statesAfter hone h.arena
      (statesAfter_cooperative_of_adversarial hone (k + 1) hinitial)
  · intro i e e' he he' a heval
    rw [(hanswer.layers i e he).eval_iff] at heval
    rw [(hanswer'.layers i e' he').eval_iff]
    exact statesAfter_cooperative_of_adversarial hone (i + 1) heval

end Help

/-- The agent wins by copying, and wins with help. -/
theorem copyGame_cooperative_of_adversarial :
    ∃ solution solution' later later', copySession.store.Sound ∧
      copyGame.Readable copySession.store ⟨2, false, by decide⟩ .one ∧ copyGame.constraint = .one ∧
      (copyGame.solve .adversarial ⟨2, false, by decide⟩ .one).run.run copySession.store =
        (.ok solution, later) ∧
      (copyGame.solve .cooperative ⟨2, false, by decide⟩ .one).run.run copySession.store =
        (.ok solution', later') ∧
      solution.realizable = true ∧ solution'.realizable = true ∧
      solution'.iterations ≤ solution.iterations := by
  have hok : answersWith (copyGame.solve .adversarial ⟨2, false, by decide⟩ .one)
      copySession.store (fun solution _ => solution.realizable) = true := by cbv
  have hok' : answersWith (copyGame.solve .cooperative ⟨2, false, by decide⟩ .one)
      copySession.store (fun _ _ => true) = true := by cbv
  obtain ⟨solution, later, hrun, hrealizable⟩ := exists_run_of_answersWith hok
  obtain ⟨solution', later', hrun', -⟩ := exists_run_of_answersWith hok'
  have hs := copySession_valid.sound
  have key := cooperative_of_adversarial rfl hs.toReduced copyGame_closed.readable hs le_rfl hs
    le_rfl hrun hrun'
  exact ⟨solution, solution', later, later', hs, copyGame_closed.readable, rfl, hrun, hrun',
    hrealizable, key.1 hrealizable⟩

section Observation

/-- A search against the opponent finds the initial state in the first layer that has it. -/
theorem Answered.realizable_of_mem_layer (h : game.Closed store goal space)
    (hanswer : Answered store later game .adversarial goal space solution) {n : Nat}
    (hn : game.arena.initial ∈ layer game store goal space (n + 1)) :
    solution.realizable = true ∧ solution.iterations ≤ n + 1 := by
  obtain ⟨k, hk, -, hnot⟩ := hanswer.ends
  have hkn : k ≤ n := Nat.not_lt.1 fun hlt => hnot n hlt ((h.halts_iff_stops n).2 (.inl hn))
  refine ⟨?_, by omega⟩
  rw [(hanswer.solved h).realizable_iff h.arena]
  exact layer_subset_attractor (n + 1) hn

/-- The same game, in which the environment moves first. -/
def observing (game : Game) : Game :=
  { game with starting := .environment }

variable (h : game.observing.Closed store goal space) (hstart : game.starting = .agent)
  (hprot : game.protagonist = .agent)

/-- With the environment moving second nothing more is asked for. -/
theorem Closed.of_observing (h : game.observing.Closed store goal space)
    (hstart : game.starting = .agent) : game.Closed store goal space where
  arena := h.arena
  goal_over := h.goal_over
  space_over := h.space_over
  constraint_over := h.constraint_over
  constraint_early := fun hearly => absurd (hstart.symm.trans hearly) (by decide)
  constraint_free := h.constraint_free

include h hstart hprot

/-- A move that is good for every input is good for the input that is seen. -/
theorem mem_cpre_observing {U V : Set (List Bool)} {s : List Bool}
    (hs : s.length = game.arena.stateVars.length)
    (hUV : ∀ t : List Bool, t.length = game.arena.stateVars.length → t ∈ U → t ∈ V)
    (hmem : s ∈ cpre game store space U) : s ∈ cpre game.observing store space V := by
  unfold cpre at hmem ⊢
  simp only [Set.mem_ofPred_eq, hstart, hprot, observing] at hmem ⊢
  obtain ⟨Y, hspace, hnext⟩ := hmem
  rintro X ⟨Y', hX⟩
  have hX : game.arena.Holds store game.constraint s X Y :=
    (Automaton.holds_of_over_inputs h.arena (h.constraint_early rfl) hs).1 hX
  exact ⟨Y, hspace X, hUV _ (Automaton.successor_length h.arena) (hnext X hX)⟩

theorem mem_layer_observing (k : Nat) : ∀ s : List Bool, s.length = game.arena.stateVars.length →
    s ∈ layer game store goal space k → s ∈ layer game.observing store goal space k := by
  induction k with
  | zero => exact fun s _ hs => hs
  | succ k ih =>
    rintro s hs (hold | hnew)
    · exact .inl (ih s hs hold)
    · exact .inr (mem_cpre_observing h hstart hprot hs ih hnew)

/-- If the agent wins when it moves first then it wins when it sees the input, within as many
iterations. Each layer of the first search implies the layer of the same number of the second. -/
theorem observing_of_agent_starts (hr : store.Reduced) (hdefault : game.maxIterations = none)
    (hvars : ∀ v ∈ game.arena.outputs, v ≠ 0) (hs : start.Sound) (hle : store ≤ start)
    (hs' : start'.Sound) (hle' : store ≤ start')
    (hrun : (game.solve .adversarial goal space).run.run start = (.ok solution, later))
    {outcome : Except Failure Solution}
    (hrun' : (game.observing.solve .adversarial goal space).run.run start' = (outcome, later')) :
    (solution.realizable = true →
      (∃ failure, outcome = .error failure ∧ IsFull failure later') ∨
      ∃ solution', outcome = .ok solution' ∧ solution'.realizable = true ∧
        solution'.iterations ≤ solution.iterations) ∧
    ∀ solution', outcome = .ok solution' → ∀ (i : Nat) (e e' : Edge),
      solution.layers[i]? = some e → solution'.layers[i]? = some e' →
        ∀ a, later.eval e a = true → later'.eval e' a = true := by
  have hsearch : Concludes Store.Sound (game.observing.solve .adversarial goal space) start'
      (fun solution' later => Answered store later game.observing .adversarial goal space solution')
      fun failure later => GivesUp store later game.observing .adversarial goal space
        game.observing.iterationBound failure :=
    concludes_search_of_le hs' hr hle' h.readable
  obtain ⟨-, -, hanswer⟩ := (concludes_search_of_le hs hr hle
    (h.of_observing hstart).readable).yields solution later hrun
  have hsolved := hanswer.solved (h.of_observing hstart)
  have hanswer' : ∀ solution', outcome = .ok solution' →
      Answered store later' game.observing .adversarial goal space solution' := by
    rintro solution' rfl
    exact (hsearch.yields solution' later' hrun').2.2
  constructor
  · intro hrealizable
    obtain ⟨k, hk, -, -⟩ := hanswer.ends
    have hinitial := hsolved.realizable.1 hrealizable
    rw [hk] at hinitial ⊢
    have hinitial := mem_layer_observing h hstart hprot (k + 1) _ h.arena.initial_length hinitial
    cases outcome with
    | error failure =>
      have hgives := hsearch.fails failure (by rw [hrun'])
      rw [hrun'] at hgives
      have hprotagonist : game.observing.protagonistVars = game.arena.outputs := by
        simp only [protagonistVars, Player.vars, observing, hprot]
      exact .inl ⟨failure, rfl, GivesUp.isFull h.arena (fun _ => h.causal) hdefault
        (hprotagonist ▸ hvars) hgives⟩
    | ok solution' =>
      exact .inr ⟨solution', rfl, (hanswer' solution' rfl).realizable_of_mem_layer h hinitial⟩
  · intro solution' heq i e e' he he' a heval
    have hsolved' := (hanswer' solution' heq).solved h
    rw [(hsolved.layers i e he).eval_iff] at heval
    rw [(hsolved'.layers i e' he').eval_iff]
    exact mem_layer_observing h hstart hprot (i + 1) _ (game.arena.stateOf_length a) heval

end Observation

/-- The game of the agent who wants to copy the input but moves first. -/
def blindGame : Game :=
  { copyGame with starting := .agent }

theorem output_over : copySession.store.Over [1, 3] ⟨4, false, by decide⟩ := by
  have hs := copySession_valid.sound
  have hhas : copySession.store.Has ⟨4, false, by decide⟩ :=
    copySession_valid.has _ (by decide +kernel)
  have hvar : (copySession.store.node 4).var = 3 := by decide +kernel
  have hlow : copySession.store.low ⟨4, false, by decide⟩ = .zero := by decide +kernel
  have hhigh : copySession.store.high ⟨4, false, by decide⟩ = .one := by decide +kernel
  refine ⟨hhas, fun a b hab => ?_⟩
  rw [hs.founded.eval_inner hhas (by decide), hs.founded.eval_inner hhas (by decide), hvar, hlow,
    hhigh, hab 3 (by decide)]
  simp

theorem blindGame_closed :
    blindGame.observing.Closed copySession.store ⟨4, false, by decide⟩ .one :=
  { copyGame_closed with goal_over := output_over }

/-- An agent that wants its output to be true wins when it moves first, and when it sees the
input. -/
theorem blindGame_observing_of_agent_starts :
    ∃ solution solution' later later', copySession.store.Sound ∧
      blindGame.observing.Closed copySession.store ⟨4, false, by decide⟩ .one ∧
      (blindGame.solve .adversarial ⟨4, false, by decide⟩ .one).run.run copySession.store =
        (.ok solution, later) ∧
      (blindGame.observing.solve .adversarial ⟨4, false, by decide⟩ .one).run.run
        copySession.store = (.ok solution', later') ∧
      solution.realizable = true ∧ solution'.realizable = true ∧
      solution'.iterations ≤ solution.iterations := by
  have hok : answersWith (blindGame.solve .adversarial ⟨4, false, by decide⟩ .one)
      copySession.store (fun solution _ => solution.realizable) = true := by cbv
  have hok' : answersWith (blindGame.observing.solve .adversarial ⟨4, false, by decide⟩ .one)
      copySession.store (fun _ _ => true) = true := by cbv
  obtain ⟨solution, later, hrun, hrealizable⟩ := exists_run_of_answersWith hok
  obtain ⟨solution', later', hrun', -⟩ := exists_run_of_answersWith hok'
  have hs := copySession_valid.sound
  have hvars : ∀ v ∈ blindGame.arena.outputs, v ≠ 0 := by simp [blindGame, copyGame]
  have key := observing_of_agent_starts blindGame_closed rfl rfl hs.toReduced rfl hvars hs le_rfl hs
    le_rfl hrun hrun'
  obtain ⟨failure, herror, -⟩ | ⟨answer, hanswer, hbetter⟩ := key.1 hrealizable
  · exact absurd herror (by simp)
  · obtain rfl := Except.ok.inj hanswer
    exact ⟨solution, solution', later, later', hs, blindGame_closed, hrun, hrun', hrealizable,
      hbetter⟩

end PlanningGame.Game
