import Mathlib
import PlanningGame.Proofs.Game.Solving

/-!
# Winning plays

Every move kept for a state of a layer either is in the goal or leads into the layer before. So the
number of the layer goes down as long as the strategy is followed, and the goal is reached within as
many steps as the solver made iterations.
-/
namespace PlanningGame

open Diagram

namespace Strategy

/-- A state with the move of the opponent and the answer of the strategy, or the other way round. -/
def move (strategy : Strategy) (store : Store) (state : List Bool) (opponent : Valuation) :
    Except Error Valuation := do
  let values ← strategy.output store state opponent
  return strategy.arena.valuation state (opponent.assign (values.map (·.1)) (values.map (·.2)))

/-- After some steps of a play, the state together with the moves of both players is the given
valuation. -/
def Position (strategy : Strategy) (store : Store) (states : List (List Bool))
    (opponents : List Valuation) (i : Nat) (full : Valuation) : Prop :=
  ∃ (t : List Bool) (o : Valuation), states[i]? = some t ∧ opponents[i]? = some o ∧
    strategy.move store t o = .ok full

variable {strategy : Strategy} {store : Store} {s : List Bool} {o : Valuation}

theorem next_eq_of_move {full : Valuation} (h : strategy.move store s o = .ok full)
    (hlength : s.length = strategy.arena.initial.length) :
    strategy.next store s o = .ok (strategy.arena.next.map fun e => store.eval e full) := by
  unfold move at h
  unfold next
  cases hout : strategy.output store s o with
  | error e => simp [hout, bind, Except.bind] at h
  | ok values =>
    rw [hout] at h
    obtain rfl := Except.ok.inj h
    change strategy.arena.step store s _ = _
    rw [Automaton.step, if_pos hlength]

/-- The answer of a strategy takes the values of its functions. -/
theorem assign_functions (store : Store) (functions : Std.TreeMap Var Edge) (a o : Valuation)
    (v : Var) :
    let values := functions.toList.map fun entry => (entry.1, store.eval entry.2 a)
    o.assign (values.map (·.1)) (values.map (·.2)) v =
      if functions[v]?.isSome then replaced store functions a v else o v := by
  intro values
  have hvalues : values.map (·.2) = (values.map (·.1)).map (replaced store functions a) := by
    simp only [values, List.map_map]
    refine List.map_congr_left fun entry hmem => ?_
    have : functions[entry.1]? = some entry.2 :=
      Std.TreeMap.mem_toList_iff_getElem?_eq_some.1 hmem
    simp [replaced, this]
  have hkeys : v ∈ values.map (·.1) ↔ functions[v]?.isSome = true := by
    simp only [values, List.map_map, List.mem_map, Function.comp_apply, Prod.exists,
      Std.TreeMap.mem_toList_iff_getElem?_eq_some, Option.isSome_iff_exists]
    constructor
    · rintro ⟨w, e, he, rfl⟩
      exact ⟨e, he⟩
    · rintro ⟨e, he⟩
      exact ⟨v, e, he, rfl⟩
  rw [hvalues, Valuation.assign_map]
  simp only [hkeys]

/-- With functions for exactly the given variables, none of which is a state variable, these
variables take the values of their functions at the state and the opponent's move. -/
theorem move_eq_followed {origin : Store} {vars : List Var}
    (harena : strategy.arena.Closed origin)
    (hfunctions : ∀ v : Var, strategy.functions[v]?.isSome = true ↔ v ∈ vars)
    (hvars : ∀ v ∈ vars, v ∉ strategy.arena.stateVars)
    (hs : s.length = strategy.arena.stateVars.length) :
    strategy.move store s o = .ok (Game.followed store strategy.functions vars
      (strategy.arena.valuation s o)) := by
  unfold move output
  rw [if_pos (hs.trans harena.initial_length.symm)]
  dsimp only [bind, Except.bind, pure, Except.pure]
  obtain ⟨b, rfl⟩ := Valuation.exists_map_eq harena.stateVars_nodup hs
  refine congrArg Except.ok (funext fun v => ?_)
  have hassign := assign_functions store strategy.functions
    (strategy.arena.valuation (strategy.arena.stateVars.map b) o) o v
  dsimp only at hassign
  rw [Automaton.valuation, Valuation.assign_map, hassign]
  simp only [hfunctions, Game.followed]
  by_cases hv : v ∈ vars
  · simp only [hv, if_neg (hvars v hv), if_true]
  · simp only [hv, if_false, Automaton.valuation, Valuation.assign_map]

/-- The next state is the successor under both moves. -/
theorem next_eq_successor {origin : Store} {full : Valuation}
    (harena : strategy.arena.Closed origin) (hr : origin.Reduced) (hle : origin ≤ store)
    (hmove : strategy.move store s o = .ok full) (hstate : strategy.arena.stateOf full = s) :
    strategy.next store s o = .ok (strategy.arena.successor origin s full full) := by
  have hlength : s.length = strategy.arena.initial.length := by
    rw [← hstate, Automaton.stateOf_length, harena.initial_length]
  rw [next_eq_of_move hmove hlength]
  refine congrArg Except.ok (List.map_congr_left fun e he => ?_)
  have hover := harena.next_over e he
  rw [hr.eval_mono hle hover.has, ← Automaton.eval_joint hover, hstate]

end Strategy

namespace Game

variable {game : Game} {origin later : Store} {goal space : Edge} {solution : Solution}
  {s : List Bool} {o full : Valuation}

theorem protagonistVars_not_mem_stateVars (h : game.arena.Closed origin) {v : Var}
    (hv : v ∈ game.protagonistVars) : v ∉ game.arena.stateVars := by
  intro hstate
  unfold protagonistVars Player.vars at hv
  split at hv
  · exact h.not_mem_outputs hstate hv
  · exact h.not_mem_inputs hstate hv

/-- The functions of the strategy, read at the state and the opponent's move, give the move. -/
theorem Chooses.move_eq {strategy : Strategy} {M : Valuation → Prop}
    (hchooses : Chooses later game.protagonistVars ∅ strategy.functions M)
    (h : game.arena.Closed origin) (harena : strategy.arena = game.arena)
    (hs : s.length = game.arena.stateVars.length) :
    strategy.move later s o =
      .ok (followed later strategy.functions game.protagonistVars
        (game.arena.valuation s o)) := by
  rw [← harena]
  refine Strategy.move_eq_followed (harena ▸ h) (fun v => hchooses.isSome_iff) (fun v hv => ?_)
    (harena ▸ hs)
  rw [harena]
  exact protagonistVars_not_mem_stateVars h hv

theorem Solved.move_eq (hsolved : Solved origin later game goal space solution)
    (h : game.Closed origin goal space) (hs : s.length = game.arena.stateVars.length) :
    solution.strategy.move later s o =
      .ok (followed later solution.strategy.functions game.protagonistVars
        (game.arena.valuation s o)) :=
  hsolved.chooses.move_eq h.arena hsolved.arena hs

theorem stateOf_valuation (h : game.arena.Closed origin)
    (hs : s.length = game.arena.stateVars.length) (o : Valuation) :
    game.arena.stateOf (game.arena.valuation s o) = s :=
  Valuation.map_assign o h.stateVars_nodup hs

/-- The strategy leaves the state alone. -/
theorem stateOf_followed (h : game.arena.Closed origin)
    (hs : s.length = game.arena.stateVars.length) (store : Store) (functions : Substitution)
    (o : Valuation) :
    game.arena.stateOf (followed store functions game.protagonistVars
      (game.arena.valuation s o)) = s := by
  rw [← stateOf_valuation h hs o]
  refine List.map_congr_left fun v hv => ?_
  rw [stateOf_valuation h hs o]
  exact if_neg fun hmem => protagonistVars_not_mem_stateVars h hmem hv

section Round

variable (hr : origin.Reduced) (hle : origin ≤ later) (h : game.Closed origin goal space)
  (hsolved : Solved origin later game goal space solution)
  (hs : s.length = game.arena.stateVars.length)

include hr hle in
theorem holds_later {e : Edge} (he : origin.Over game.arena.vars e) (a : Valuation) :
    later.eval e a = true ↔ game.arena.Holds origin e (game.arena.stateOf a) a a := by
  rw [hr.eval_mono hle he.has, Automaton.holds_stateOf he]

include hr hle h hsolved hs in
/-- In a winning state, against a move that satisfies the constraint, the strategy picks one of the
moves found. -/
theorem Solved.found_of_move
    (hmem : s ∈ layer game origin goal space solution.iterations)
    (hmove : solution.strategy.move later s o = .ok full)
    (hlegal : later.eval game.constraint full = true) :
    found game origin goal space solution.iterations s full full := by
  rw [hsolved.move_eq h hs] at hmove
  obtain rfl := Except.ok.inj hmove
  have hstate := stateOf_valuation h.arena hs o
  have hfull := stateOf_followed h.arena hs later solution.strategy.functions o
  have hlegal := (holds_later hr hle h.constraint_over _).1 hlegal
  rw [hfull] at hlegal
  have key := hsolved.chooses.chosen (game.arena.valuation s o) ?_
  · rwa [hfull] at key
  -- the opponent's move is given, so there is a move of the protagonist that goes with it
  have hpicks := h.picks_found_of_mem hs _ hmem
  have hreads : game.arena.Reads (found game origin goal space solution.iterations) :=
    reads_found _
  unfold picks at hpicks
  cases hstart : game.starting <;> cases hprot : game.protagonist <;>
    simp only [hstart, hprot] at hpicks <;> simp only [protagonistVars, Player.vars, hprot]
  · rw [h.arena.exists_outputs hreads, hstate]
    exact hpicks.imp fun Y hY => hY _
  · rw [h.arena.exists_inputs hreads, hstate]
    exact hpicks _
  · rw [h.arena.exists_outputs hreads, hstate]
    refine hpicks _ ⟨_, (Automaton.holds_congr (fun v hv => ?_) fun _ _ => rfl).1 hlegal⟩
    simp only [followed, protagonistVars, Player.vars, hprot]
    exact if_neg (h.arena.inputs_not_mem_outputs hv)
  · rw [h.arena.exists_inputs hreads, hstate]
    exact hpicks.imp fun X hX => hX _

include hr hle h hsolved hs in
/-- The next state is the successor under both moves. -/
theorem Solved.next_eq (hmove : solution.strategy.move later s o = .ok full) :
    solution.strategy.next later s o = .ok (game.arena.successor origin s full full) := by
  have hstate : game.arena.stateOf full = s := by
    rw [hsolved.move_eq h hs] at hmove
    exact Except.ok.inj hmove ▸ stateOf_followed h.arena hs later solution.strategy.functions o
  have harena := h.arena
  rw [← hsolved.arena] at harena hstate ⊢
  exact Strategy.next_eq_successor harena hr hle hmove hstate

end Round

/-- The moves found for a state of a layer are those found when the layer was new. -/
theorem found_iff_of_mem {X Y : Valuation} {j k : Nat} (hjk : j ≤ k)
    (hmem : s ∈ layer game origin goal space j) :
    found game origin goal space k s X Y ↔ found game origin goal space j s X Y := by
  induction k, hjk using Nat.le_induction with
  | base => rfl
  | succ k hjk ih => rw [found_succ_of_mem k (layer_mono hjk hmem), ih]

/-- Under a legal move a state outside the layer before is left for that layer. -/
theorem leads_successor {W : Set (List Bool)} {X Y : Valuation}
    (hleads : leads game origin W s X Y) (hlegal : game.arena.Holds origin game.constraint s X Y) :
    game.arena.successor origin s X Y ∈ W := by
  unfold leads at hleads
  split at hleads
  · exact hleads X hlegal
  · exact hleads Y
  · exact hleads
  · exact hleads

section Play

variable (hr : origin.Reduced) (hle : origin ≤ later) (h : game.Closed origin goal space)
  (hsolved : Solved origin later game goal space solution)

include hr hle h hsolved in
/-- The strategy always goes on. -/
theorem Solved.playFrom_eq (hs : s.length = game.arena.stateVars.length)
    (opponents : List Valuation) :
    ∃ states, solution.strategy.playFrom later s opponents = .ok states ∧
      states.length = opponents.length + 1 := by
  induction opponents generalizing s with
  | nil => exact ⟨[s], rfl, rfl⟩
  | cons o rest ih =>
    have hnext := hsolved.next_eq hr hle h hs (hsolved.move_eq (o := o) h hs)
    obtain ⟨states, hstates, hlength⟩ := ih (Automaton.successor_length h.arena)
    refine ⟨s :: states, ?_, by simp [hlength]⟩
    rw [Strategy.playFrom, hnext]
    change (solution.strategy.playFrom later _ rest >>= _) = _
    rw [hstates]
    rfl

include hr hle h hsolved in
/-- The first round of a play, and the rest of it. -/
theorem Solved.first_round (hs : s.length = game.arena.stateVars.length) {rest : List Valuation}
    {states : List (List Bool)}
    (hplay : solution.strategy.playFrom later s (o :: rest) = .ok states) :
    ∃ full states', states = s :: states' ∧ game.arena.stateOf full = s ∧
      solution.strategy.move later s o = .ok full ∧
      solution.strategy.playFrom later (game.arena.successor origin s full full) rest =
        .ok states' := by
  have hmove := hsolved.move_eq (o := o) h hs
  have hnext := hsolved.next_eq hr hle h hs hmove
  obtain ⟨states', hstates', -⟩ :=
    hsolved.playFrom_eq hr hle h (Automaton.successor_length h.arena) rest
  refine ⟨_, states', ?_, stateOf_followed h.arena hs _ _ o, hmove, hstates'⟩
  rw [Strategy.playFrom, hnext] at hplay
  change (solution.strategy.playFrom later _ rest >>= _) = _ at hplay
  rw [hstates'] at hplay
  exact (Except.ok.inj hplay).symm

include hr hle h hsolved in
/-- The induction is on the layer of the state: the goal is reached within as many steps. -/
theorem Solved.reaches_goal {k : Nat} (hk : k ≤ solution.iterations)
    (hs : s.length = game.arena.stateVars.length) (hmem : s ∈ layer game origin goal space k)
    {opponents : List Valuation} (hlong : k < opponents.length) {states : List (List Bool)}
    (hplay : solution.strategy.playFrom later s opponents = .ok states)
    (hlegal : ∀ i full, solution.strategy.Position later states opponents i full →
      later.eval game.constraint full = true) :
    ∃ i ≤ k, (∃ full, solution.strategy.Position later states opponents i full ∧
        later.eval space full = true ∧ later.eval goal full = true) ∧
      ∀ j < i, ∃ full, solution.strategy.Position later states opponents j full ∧
        later.eval space full = true := by
  have hown := protagonistVars_subset game
  induction k generalizing s opponents states with
  | zero =>
    obtain ⟨o, rest, rfl⟩ := List.exists_cons_of_length_pos hlong
    obtain ⟨full, states', rfl, hstate, hmove, -⟩ := hsolved.first_round hr hle h hs hplay
    have hpos : solution.strategy.Position later (s :: states') (o :: rest) 0 full :=
      ⟨s, o, rfl, rfl, hmove⟩
    have hfound := hsolved.found_of_move hr hle h hs (layer_mono hk hmem) hmove (hlegal 0 full hpos)
    obtain ⟨hspace, hgoal⟩ := (found_iff_of_mem hk hmem).1 hfound
    refine ⟨0, le_rfl, ⟨full, hpos, ?_, ?_⟩, fun j hj => absurd hj (Nat.not_lt_zero j)⟩
    · exact (holds_later hr hle (h.space_over.subset hown) full).2 (hstate.symm ▸ hspace)
    · exact (holds_later hr hle (h.goal_over.subset hown) full).2 (hstate.symm ▸ hgoal)
  | succ k ih =>
    by_cases hold : s ∈ layer game origin goal space k
    · obtain ⟨i, hi, hreach⟩ := ih (by omega) hs hold (by omega) hplay hlegal
      exact ⟨i, by omega, hreach⟩
    obtain ⟨o, rest, rfl⟩ := List.exists_cons_of_length_pos (Nat.zero_lt_of_lt hlong)
    obtain ⟨full, states', rfl, hstate, hmove, hplay'⟩ := hsolved.first_round hr hle h hs hplay
    have hpos : solution.strategy.Position later (s :: states') (o :: rest) 0 full :=
      ⟨s, o, rfl, rfl, hmove⟩
    have hlegal₀ := hlegal 0 full hpos
    have hfound := hsolved.found_of_move hr hle h hs (layer_mono hk hmem) hmove hlegal₀
    rw [found_iff_of_mem hk hmem, found_succ_of_not_mem k hold] at hfound
    obtain ⟨hspace, hleads⟩ := hfound
    have hnext := leads_successor hleads
      (hstate ▸ (holds_later hr hle h.constraint_over full).1 hlegal₀)
    obtain ⟨i, hi, hreach, hbefore⟩ := ih (by omega) (Automaton.successor_length h.arena) hnext
      (by simpa using hlong) hplay' fun i full' hfull => hlegal (i + 1) full' hfull
    refine ⟨i + 1, by omega, hreach, fun j hj => ?_⟩
    cases j with
    | zero =>
      exact ⟨full, hpos,
        (holds_later hr hle (h.space_over.subset hown) full).2 (hstate.symm ▸ hspace)⟩
    | succ j => exact hbefore j (by omega)

end Play

/-- From every winning state, against every sequence of legal moves that is long enough, the
strategy reaches the goal within as many steps as there were iterations, by safe moves only. -/
theorem solve_adversarial_wins {store : Store} (hs : store.Sound)
    (h : game.Closed store goal space)
    (hrun : (game.solve .adversarial goal space).run.run store = (.ok solution, later))
    (hlength : s.length = game.arena.stateVars.length)
    (hwinning : game.arena.satisfies later solution.winningStates s = true)
    {opponents : List Valuation} (hlong : opponents.length = solution.iterations + 1) :
    ∃ states, solution.strategy.playFrom later s opponents = .ok states ∧
      states.length = opponents.length + 1 ∧
      ((∀ i full, solution.strategy.Position later states opponents i full →
          later.eval game.constraint full = true) →
        ∃ i ≤ solution.iterations,
          (∃ full, solution.strategy.Position later states opponents i full ∧
            later.eval space full = true ∧ later.eval goal full = true) ∧
          ∀ j < i, ∃ full, solution.strategy.Position later states opponents j full ∧
            later.eval space full = true) := by
  obtain ⟨-, hle, hsolved⟩ := yields_solve hs h solution later hrun
  obtain ⟨states, hplay, hstates⟩ := hsolved.playFrom_eq hs.toReduced hle h hlength opponents
  refine ⟨states, hplay, hstates, fun hlegal => ?_⟩
  have hmem := (hsolved.states_iff _).1 hwinning
  rw [stateOf_valuation h.arena hlength] at hmem
  exact hsolved.reaches_goal hs.toReduced hle h le_rfl hlength hmem (by omega) hplay hlegal

/-- An agent who copies every input makes the state bit true, also if the input is always true. -/
theorem solve_copyGame_wins :
    ∃ solution later, copySession.store.Sound ∧
      copyGame.Closed copySession.store ⟨2, false, by decide⟩ .one ∧
      (copyGame.solve .adversarial ⟨2, false, by decide⟩ .one).run.run copySession.store =
        (.ok solution, later) ∧
      copyGame.arena.satisfies later solution.winningStates [false] = true ∧
      ∃ states full i, i ≤ solution.iterations ∧
        solution.strategy.playFrom later [false]
          (List.replicate (solution.iterations + 1) fun v => v = 2) = .ok states ∧
        solution.strategy.Position later states
          (List.replicate (solution.iterations + 1) fun v => v = 2) i full ∧
        later.eval .one full = true ∧ later.eval ⟨2, false, by decide⟩ full = true := by
  have hok : (match (copyGame.solve .adversarial ⟨2, false, by decide⟩ .one).run.run
      copySession.store with
    | (.ok solution, later) => copyGame.arena.satisfies later solution.winningStates [false]
    | (.error _, _) => false) = true := by cbv
  split at hok
  · next solution later hrun =>
      obtain ⟨states, hplay, -, hreach⟩ := solve_adversarial_wins copySession_valid.sound
        copyGame_closed hrun rfl hok List.length_replicate
      obtain ⟨i, hi, ⟨full, hfull, hspace, hgoal⟩, -⟩ := hreach fun _ _ _ => Store.eval_one
      exact ⟨solution, later, copySession_valid.sound, copyGame_closed, hrun, hok, states, full, i,
        hi, hplay, hfull, hspace, hgoal⟩
  · exact absurd hok (by simp)

end Game

end PlanningGame
