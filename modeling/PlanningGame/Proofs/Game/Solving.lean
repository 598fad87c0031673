import Mathlib
import PlanningGame.Proofs.Diagram.Session
import PlanningGame.Proofs.Game.Attractor
import PlanningGame.Proofs.Game.Search

/-!
# Solving games exactly

In an adversarial game whose diagrams see no moves of the opponent, what a search computes are the
layers of the attractor. When it stops, the initial state is in the last layer, or the last layer is
the one before it and so the attractor itself.
-/
namespace PlanningGame.Game

open Diagram

variable {game : Game} {origin store : Store} {goal space : Edge}

/-- The diagram of a set of states. -/
def DescribesStates (game : Game) (store : Store) (e : Edge) (W : Set (List Bool)) : Prop :=
  store.Denotes e fun a => game.arena.stateOf a ∈ W

theorem protagonistVars_subset (game : Game) :
    game.arena.stateVars ++ game.protagonistVars ⊆ game.arena.vars := by
  unfold protagonistVars Player.vars Automaton.vars
  cases game.protagonist <;> simp [List.append_subset, List.subset_append_of_subset_right]

theorem Closed.readable (h : game.Closed store goal space) : game.Readable store goal space where
  arena := h.arena
  goal_over := h.goal_over.subset (protagonistVars_subset game)
  space_over := h.space_over.subset (protagonistVars_subset game)
  constraint_over := h.constraint_over

section Layers

variable {s : List Bool} {X Y : Valuation} {W M : MoveSet}

theorem Closed.constraint_holds (h : game.Closed origin goal space)
    (hprot : game.protagonist = .environment) (s : List Bool) (X Y : Valuation) :
    game.arena.Holds origin game.constraint s X Y := by
  rw [Automaton.Holds, h.constraint_free hprot, Store.eval_one]

/-- Where the states do not depend on moves, the moves that lead there are those of the attractor.
-/
theorem preimageOf_iff_leads (harena : game.arena.Closed origin) {V : Set (List Bool)}
    (hW : ∀ t : List Bool, t.length = game.arena.stateVars.length → ∀ X Y, W t X Y ↔ t ∈ V) :
    preimageOf game origin .adversarial W s X Y ↔ leads game origin V s X Y := by
  have hnext : ∀ X Y, W (game.arena.successor origin s X Y) X Y ↔
      game.arena.successor origin s X Y ∈ V := fun X Y =>
    hW _ (Automaton.successor_length harena) X Y
  unfold preimageOf leads
  cases game.starting <;> cases game.protagonist <;> simp only [hnext]

/-- The projection is exact for moves that do not depend on an opponent who moves second. -/
theorem Closed.projectionOf_iff_picks (h : game.Closed origin goal space)
    (hs : s.length = game.arena.stateVars.length)
    (hopponent : match game.starting, game.protagonist with
      | .agent, .agent => ∀ X X' Y, M s X Y ↔ M s X' Y
      | .environment, .environment => ∀ X Y Y', M s X Y ↔ M s X Y'
      | _, _ => True) :
    projectionOf game origin .adversarial M s X Y ↔ picks game origin M s := by
  unfold projectionOf picks
  cases hstart : game.starting <;> cases hprot : game.protagonist <;>
    simp only [hstart, hprot] at hopponent ⊢
  · exact exists_congr fun Y => ⟨fun hY X' => (hopponent X X' Y).1 hY, fun hY => hY X⟩
  · simp only [h.constraint_holds hprot, true_and]
  · refine forall_congr' fun X => imp_congr_left ⟨fun hX => ⟨Y, hX⟩, fun ⟨Y', hY'⟩ => ?_⟩
    exact (Automaton.holds_of_over_inputs h.arena (h.constraint_early hstart) hs).1 hY'
  · simp only [h.constraint_holds hprot, true_and]
    exact exists_congr fun X => ⟨fun hX Y' => (hopponent X Y Y').1 hX, fun hX => hX Y⟩

/-- The states found are those of the layer, and the moves found are the ones found for them. -/
theorem Closed.search_iff (h : game.Closed origin goal space) (k : Nat) :
    ∀ s : List Bool, s.length = game.arena.stateVars.length → ∀ X Y,
      (movesAfter game origin .adversarial goal space k s X Y ↔
        found game origin goal space k s X Y) ∧
      (statesAfter game origin .adversarial goal space k s X Y ↔
        s ∈ layer game origin goal space k) := by
  induction k with
  | zero => exact fun s _ X Y => ⟨Iff.rfl, Iff.rfl⟩
  | succ k ih =>
    intro s hs X Y
    have hstates : ∀ t : List Bool, t.length = game.arena.stateVars.length → ∀ X Y,
        statesAfter game origin .adversarial goal space k t X Y ↔
          t ∈ layer game origin goal space k := fun t ht X Y => (ih t ht X Y).2
    have hmoves : ∀ X Y, movesAfter game origin .adversarial goal space (k + 1) s X Y ↔
        found game origin goal space (k + 1) s X Y := by
      intro X Y
      refine or_congr (ih s hs X Y).1 (and_congr (and_congr_right' ?_) ?_)
      · exact not_congr (hstates s hs X Y)
      · exact preimageOf_iff_leads h.arena hstates
    refine ⟨hmoves X Y, ?_⟩
    have hopponent := h.found_opponent (k + 1) hs
    simp only [← hmoves] at hopponent
    rw [← h.picks_found_succ_iff hs, ← picks_congr hmoves]
    exact h.projectionOf_iff_picks hs hopponent

theorem Closed.movesAfter_iff (h : game.Closed origin goal space) (k : Nat)
    (hs : s.length = game.arena.stateVars.length) :
    movesAfter game origin .adversarial goal space k s X Y ↔ found game origin goal space k s X Y :=
  (h.search_iff k s hs X Y).1

theorem Closed.statesAfter_iff (h : game.Closed origin goal space) (k : Nat)
    (hs : s.length = game.arena.stateVars.length) :
    statesAfter game origin .adversarial goal space k s X Y ↔ s ∈ layer game origin goal space k :=
  (h.search_iff k s hs X Y).2

theorem Closed.halts_iff_stops (h : game.Closed origin goal space) (k : Nat) :
    Halts game origin .adversarial goal space k ↔ Stops game origin goal space k := by
  refine or_congr (h.statesAfter_iff _ h.arena.initial_length) ⟨fun hsame s hs hmem => ?_, ?_⟩
  · obtain ⟨a, rfl⟩ := Valuation.exists_map_eq h.arena.stateVars_nodup hs
    exact (h.statesAfter_iff k hs).1
      ((hsame a).1 ((h.statesAfter_iff (k + 1) hs).2 hmem))
  · intro hstable a
    have ha := game.arena.stateOf_length a
    rw [h.statesAfter_iff _ ha, h.statesAfter_iff _ ha]
    exact ⟨hstable _ ha, .inl⟩

end Layers

/-- The layers that the solver knows after as many iterations as there are. -/
structure Progress (origin store : Store) (game : Game) (goal space : Edge) (layers : List Edge) :
    Prop where
  layers : ∀ (i : Nat) (e : Edge), layers.reverse[i]? = some e →
    DescribesStates game store e (layer game origin goal space (i + 1))

/-- A solution of a game, with one layer for each iteration. It ends with the initial state in the
last layer or with a layer that is not new. -/
structure Solved (origin later : Store) (game : Game) (goal space : Edge) (solution : Solution) :
    Prop where
  length : solution.layers.length = solution.iterations
  layers : ∀ (i : Nat) (e : Edge), solution.layers[i]? = some e →
    DescribesStates game later e (layer game origin goal space (i + 1))
  winning : solution.layers.getLast? = some solution.winningStates
  realizable : solution.realizable = true ↔
    game.arena.initial ∈ layer game origin goal space solution.iterations
  stable : solution.realizable = false → ∀ s : List Bool,
    s.length = game.arena.stateVars.length →
      (s ∈ layer game origin goal space solution.iterations ↔
        s ∈ attractor game origin goal space)
  moves : Describes game later solution.winningMoves
    (found game origin goal space solution.iterations)
  arena : solution.strategy.arena = game.arena
  chooses : Chooses later game.protagonistVars ∅ solution.strategy.functions fun a =>
    found game origin goal space solution.iterations (game.arena.stateOf a) a a

theorem Solved.states_iff {later : Store} {solution : Solution}
    (h : Solved origin later game goal space solution) (a : Valuation) :
    later.eval solution.winningStates a = true ↔
      game.arena.stateOf a ∈ layer game origin goal space solution.iterations := by
  obtain ⟨before, hlayers⟩ := List.getLast?_eq_some_iff.1 h.winning
  have hlength : solution.iterations = before.length + 1 := by
    rw [← h.length, hlayers, List.length_append, List.length_singleton]
  rw [hlength]
  exact (h.layers before.length _ (by simp [hlayers])).eval_iff a

theorem Solved.realizable_iff {later : Store} {solution : Solution}
    (h : Solved origin later game goal space solution) (harena : game.arena.Closed origin) :
    solution.realizable = true ↔ game.arena.initial ∈ attractor game origin goal space := by
  rw [h.realizable]
  constructor
  · exact fun hmem => layer_subset_attractor _ hmem
  · intro hmem
    by_contra hnot
    have hfalse : solution.realizable = false := by
      simpa using mt h.realizable.1 hnot
    exact hnot ((h.stable hfalse _ harena.initial_length).2 hmem)

theorem Searched.progress {moves states : Edge} {layers : List Edge}
    (hp : Searched origin store game .adversarial goal space moves states layers)
    (h : game.Closed origin goal space) : Progress origin store game goal space layers :=
  ⟨fun i e hi => (hp.layers i e hi).congr fun a => h.statesAfter_iff _ (game.arena.stateOf_length a)⟩

/-- The answer of a search is a solution. -/
theorem Answered.solved {later : Store} {solution : Solution}
    (hanswer : Answered origin later game .adversarial goal space solution)
    (h : game.Closed origin goal space) : Solved origin later game goal space solution := by
  have hstates := fun k a => h.statesAfter_iff (X := a) (Y := a) k (game.arena.stateOf_length a)
  have hmoves := fun k a => h.movesAfter_iff (X := a) (Y := a) k (game.arena.stateOf_length a)
  have hinitial := hanswer.realizable.trans (h.statesAfter_iff _ h.arena.initial_length)
  refine ⟨hanswer.length, fun i e hi => (hanswer.layers i e hi).congr (hstates _), hanswer.winning,
    hinitial, fun hfalse s hlength => ?_, hanswer.moves.congr (hmoves _), hanswer.arena, ?_⟩
  · -- the initial state was not found, so the states were found before
    obtain ⟨k, hk, hhalts, -⟩ := hanswer.ends
    rw [hk] at hinitial ⊢
    have hstable := ((h.halts_iff_stops k).1 hhalts).resolve_left fun hmem => by
      simp [hinitial.2 hmem] at hfalse
    rw [mem_attractor_iff_of_stable h.arena hstable hlength]
    exact ⟨hstable s hlength, .inl⟩
  · exact hanswer.chooses.congr (hmoves _)

theorem delivers_solve {room : Store → Prop} (hroom : ∀ store, room store → HasRoom store)
    (hs : store.Sound) (h : game.Closed store goal space)
    (hbound : ∀ {later : Store} {layers : List Edge},
      Progress store later game goal space layers →
      layers.length = game.iterationBound →
      (∀ i < game.iterationBound, ¬ Stops game store goal space i) → ¬ room later)
    (hvars : ∀ v ∈ game.protagonistVars, v ≠ 0) :
    PlanningGame.Delivers Store.Sound room (game.solve .adversarial goal space) store
      fun solution later => Solved store later game goal space solution := by
  refine (delivers_search hroom hs h.readable (fun hp hlength hnot => ?_) hvars).weaken
    fun solution later _ _ hanswer => hanswer.solved h
  refine hbound (hp.progress h) hlength fun i hi => ?_
  exact mt (h.halts_iff_stops i).2 (hnot i hi)

/-- A game that is answered is solved. -/
theorem yields_solve (hs : store.Sound) (h : game.Closed store goal space) :
    Diagram.Yields (game.solve .adversarial goal space) store
      fun solution later => Solved store later game goal space solution :=
  (yields_search hs h.readable).weaken fun _ _ _ _ hanswer => hanswer.solved h

/-- The states under each layer are those of one step of the attractor more, the game is realizable
exactly if the attractor contains the initial state, and the states found for a game that is not
realizable are the whole attractor. -/
theorem solve_adversarial_exact (hs : store.Sound) (h : game.Closed store goal space)
    {solution : Solution} {later : Store}
    (hrun : (game.solve .adversarial goal space).run.run store = (.ok solution, later)) :
    solution.layers.length = solution.iterations ∧
      (∀ (i : Nat) (e : Edge), solution.layers[i]? = some e →
        ∀ a, later.eval e a = true ↔
          game.arena.stateOf a ∈ layer game store goal space (i + 1)) ∧
      (solution.realizable = true ↔ game.arena.initial ∈ attractor game store goal space) ∧
      solution.layers.getLast? = some solution.winningStates ∧
      (solution.realizable = false → ∀ a, later.eval solution.winningStates a = true ↔
        game.arena.stateOf a ∈ attractor game store goal space) := by
  obtain ⟨-, -, hsolved⟩ := yields_solve hs h solution later hrun
  refine ⟨hsolved.length, fun i e hi => (hsolved.layers i e hi).eval_iff,
    hsolved.realizable_iff h.arena, hsolved.winning, fun hfalse a => ?_⟩
  rw [hsolved.states_iff a, hsolved.stable hfalse _ (game.arena.stateOf_length a)]

/-- A state bit, an input, an output, and the next value of the bit: it stays true, and becomes true
when the output copies the input. -/
def copySession : Session :=
  let start := Session.start ⟨⟨#[.terminal], #[[], []]⟩, { slots := #[none, none] }, {}⟩
  let vars := ((start.perform (.literal 1)).perform (.literal 2)).perform (.literal 3)
  (vars.perform (.agree ⟨3, false, by decide⟩ ⟨4, false, by decide⟩)).perform
    (.disj ⟨2, false, by decide⟩ ⟨5, false, by decide⟩)

/-- The agent sees the input and wants the state bit to become true. -/
def copyGame : Game where
  arena :=
    { block := ⟨0⟩, stateVars := [1], initial := [false], next := [⟨6, false, by decide⟩]
      finals := ⟨2, false, by decide⟩, inputs := [2], outputs := [3] }
  starting := .environment
  protagonist := .agent

theorem copySession_valid : copySession.Valid := by
  let store : Store := ⟨⟨#[.terminal], #[[], []]⟩, { slots := #[none, none] }, {}⟩
  have hcreate : Store.create ⟨1, 1⟩ {} = .ok store := rfl
  have hone : (1 : Var) ≠ 0 := by decide
  have htwo : (2 : Var) ≠ 0 := by decide
  have hthree : (3 : Var) ≠ 0 := by decide
  have hleads : (Session.start store).Leads copySession := by
    unfold copySession
    refine .step (.step (.step (.step (.step (.refl _) ⟨hone, by simp [Request.Uses]⟩)
      ⟨htwo, by simp [Request.Uses]⟩) ⟨hthree, by simp [Request.Uses]⟩) ⟨trivial, ?_⟩) ⟨trivial, ?_⟩
    · rintro e (rfl | rfl) <;> decide +kernel
    · rintro e (rfl | rfl) <;> decide +kernel
  exact (hleads.valid (Session.valid_start hcreate)).1

theorem copyGame_closed : copyGame.Closed copySession.store ⟨2, false, by decide⟩ .one := by
  have hr := copySession_valid.sound.toReduced
  have hbit : copySession.store.Over [1] ⟨2, false, by decide⟩ :=
    hr.over_of_node (copySession_valid.has _ (by decide +kernel)) (by decide +kernel)
  have hnext : copySession.store.Over [1, 2, 3] ⟨6, false, by decide⟩ :=
    hr.over_of_node (copySession_valid.has _ (by decide +kernel)) (by decide +kernel)
  exact {
    arena := ⟨rfl, rfl, by decide, fun e he => List.mem_singleton.1 he ▸ hnext⟩
    goal_over := hbit.subset (by decide)
    space_over := hr.over_one
    constraint_over := hr.over_one
    constraint_early := fun _ => hr.over_one
    constraint_free := fun h => by cases h }

/-- The agent wins by copying, within one step. -/
theorem solve_copyGame_exact :
    ∃ solution later, copySession.store.Sound ∧
      copyGame.Closed copySession.store ⟨2, false, by decide⟩ .one ∧
      (copyGame.solve .adversarial ⟨2, false, by decide⟩ .one).run.run copySession.store =
        (.ok solution, later) ∧
      solution.layers.length = solution.iterations ∧
      (∀ (i : Nat) (e : Edge), solution.layers[i]? = some e →
        ∀ a, later.eval e a = true ↔ copyGame.arena.stateOf a ∈
          layer copyGame copySession.store ⟨2, false, by decide⟩ .one (i + 1)) ∧
      copyGame.arena.initial ∈
        attractor copyGame copySession.store ⟨2, false, by decide⟩ .one := by
  have hok : (match (copyGame.solve .adversarial ⟨2, false, by decide⟩ .one).run.run
      copySession.store with
    | (.ok solution, _) => solution.realizable
    | (.error _, _) => false) = true := by cbv
  split at hok
  · next solution later hrun =>
      obtain ⟨hlength, hlayers, hreal, -⟩ :=
        solve_adversarial_exact copySession_valid.sound copyGame_closed hrun
      exact ⟨solution, later, copySession_valid.sound, copyGame_closed, hrun, hlength, hlayers,
        hreal.1 hok⟩
  · exact absurd hok (by simp)

/-- If no input is considered at all then every condition on all considered inputs holds, but the
solver still asks for a safe move. Here no move is safe, and nothing is won. -/
theorem unrealizable_of_no_considered_input :
    ∃ (store later : Store) (game : Game) (goal space : Edge) (solution : Solution),
      store.Sound ∧ game.Closed store goal space ∧
        game.starting = .agent ∧ game.protagonist = .agent ∧
        (game.solve .adversarial goal space).run.run store = (.ok solution, later) ∧
        (∀ W : Set (List Bool), ∃ Y, ∀ X,
          game.arena.Holds store game.constraint game.arena.initial X Y →
            game.arena.Holds store space game.arena.initial X Y ∧
              game.arena.successor store game.arena.initial X Y ∈ W) ∧
        solution.realizable = false ∧
        ∃ e, solution.layers[0]? = some e ∧
          game.arena.satisfies later e game.arena.initial = false := by
  let store : Store := ⟨⟨#[.terminal], #[[], []]⟩, { slots := #[none, none] }, {}⟩
  have hcreate : Store.create ⟨1, 1⟩ {} = .ok store := rfl
  have hs := Store.sound_of_create hcreate
  have hover : ∀ vars, store.Over vars .zero := fun vars => ⟨hs.has_zero, fun _ _ _ => by simp⟩
  let game : Game :=
    { arena :=
        { block := ⟨0⟩, stateVars := [1], initial := [false], next := [.zero], finals := .zero
          inputs := [2], outputs := [3] }
      starting := .agent, protagonist := .agent, constraint := .zero }
  have hclosed : game.Closed store .one .zero := {
    arena := ⟨rfl, rfl, by decide, fun e he => List.mem_singleton.1 he ▸ hover _⟩
    goal_over := hs.over_one
    space_over := hover _
    constraint_over := hover _
    constraint_early := fun _ => hover _
    constraint_free := fun h => by cases h }
  have hok : (match (game.solve .adversarial .one .zero).run.run store with
    | (.ok solution, later) => !solution.realizable &&
      solution.layers[0]?.any fun e => !game.arena.satisfies later e game.arena.initial
    | (.error _, _) => false) = true := by decide +kernel
  split at hok
  · next solution later hrun =>
      rw [Bool.and_eq_true, Option.any_eq_true] at hok
      obtain ⟨hreal, e, he, hnot⟩ := hok
      refine ⟨store, later, game, .one, .zero, solution, hs, hclosed, rfl, rfl, hrun, fun W => ?_,
        by simpa using hreal, e, he, by simpa using hnot⟩
      exact ⟨fun _ => false, fun X hX => absurd hX (by simp [Automaton.Holds, game])⟩
  · exact absurd hok (by simp)

end PlanningGame.Game
