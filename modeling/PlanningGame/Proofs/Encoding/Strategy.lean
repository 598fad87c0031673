import Mathlib
import PlanningGame.Proofs.Domain.Reaching
import PlanningGame.Proofs.Game.Cooperation
import PlanningGame.Proofs.Encoding.Refinement

/-!
# Strategies in encoded domains

In a state without errors a strategy of the agent chooses the code of an applicable action, and
after each reaction that the action has, the next state is the one that the domain says. The chosen
action brings the play nearer to the goal: against every environment after each of its reactions,
and with the help of the environment after one of them. So the solutions of the two games speak
about steps of the domain.
-/
namespace PlanningGame.Encoding

variable {registry : Registry} {origin later : Store} {domain : Domain} {mode : AgentErrorMode}
  {encoding : Encoding} {s t : List Bool} {X Y : Valuation} {space goal : Edge}
  {maxIterations : Option Nat} {solution : Solution}

/-- In a state without errors the strategy chooses the named action whatever the environment does,
it is applicable, and play goes on as the domain says after each reaction that the action has. -/
structure Takes (encoding : Encoding) (store : Store) (strategy : Strategy) (s : List Bool)
    (name : String) : Prop where
  applicable : encoding.domain.Applicable name s
  choice : ∀ X, ∃ id, strategy.choice store (s ++ flags encoding.mode false false) X = .ok id ∧
    encoding.actionName? id = some name
  next : ∀ (X : Valuation) (reaction : String),
    encoding.reactionName? (Binary.decode (encoding.inputs.map X)) = some reaction →
    encoding.domain.Grounded name reaction →
      strategy.next store (s ++ flags encoding.mode false false) X =
        .ok (encoding.domain.result name reaction s ++ flags encoding.mode false false)

section Choice

variable {attitude : Attitude}

/-- Where moves were found for a state without errors, the strategy takes an applicable action of
one of them. -/
theorem Faithful.exists_takes (h : Faithful registry origin domain mode encoding)
    (hdomain : domain.WellFormed) (hr : origin.Reduced) (hle : origin ≤ later)
    (hlater : later.Reduced)
    (hspace : origin.Denotes space fun a =>
      Usable domain (encoding.automaton.stateOf a) (encoding.action a))
    (hclosed : (agentGame encoding.automaton maxIterations).Closed origin goal space)
    (hanswer : Game.Answered origin later (agentGame encoding.automaton maxIterations) attitude goal
      space solution)
    (hunseeing : Game.Unseeing (agentGame encoding.automaton maxIterations) origin attitude goal
      space solution.iterations)
    (hs : s.length = domain.fluents.length)
    (hmoves : ∃ X Y, Game.movesAfter (agentGame encoding.automaton maxIterations) origin attitude
      goal space solution.iterations (s ++ flags mode false false) X Y) :
    ∃ Y name, encoding.action Y = some name ∧ Takes encoding later solution.strategy s name ∧
      ∀ X, Game.movesAfter (agentGame encoding.automaton maxIterations) origin attitude goal space
        solution.iterations (s ++ flags mode false false) X Y := by
  have hlength := h.length_state hdomain hs false false
  obtain ⟨Y, hchoice, hnext, hpreferred⟩ :=
    hanswer.exists_choice hr hle hlater hclosed.readable rfl hunseeing hlength
  have hfound := hpreferred.found hmoves
  have husable := (h.holds_iff hspace hlength Y Y).1 (Game.holds_space_of_movesAfter (hfound Y))
  obtain rfl := h.domain_eq
  obtain rfl := h.mode_eq
  obtain ⟨name, hname, hflagged⟩ := husable.applicable
  have happ := (hdomain.applicable_append_iff hs).1 hflagged
  refine ⟨Y, name, hname, ⟨happ, fun X => ⟨_, hchoice X, hname⟩, ?_⟩, hfound⟩
  intro X reaction hreaction hgrounded
  rw [h.inputs_eq] at hreaction
  rw [hnext X]
  exact congrArg Except.ok (h.successor_of_grounded hdomain hs hname happ hreaction hgrounded)

end Choice

section Adversarial

/-- What the solution of the game against every environment says about the domain. -/
structure Forces (encoding : Encoding) (store : Store) (solution : Solution) : Prop where
  winning : ∃ W : Set (List Bool),
    store.Denotes solution.winningStates (fun a => encoding.automaton.stateOf a ∈ W) ∧
      ∀ s : List Bool, s.length = encoding.domain.fluents.length →
        (s ++ flags encoding.mode false false ∈ W ↔
          encoding.domain.WinsWithin solution.iterations s)
  realizable : solution.realizable = true ↔
    encoding.domain.WinsWithin solution.iterations encoding.domain.initial
  complete : solution.realizable = false → ∀ s : List Bool,
    s.length = encoding.domain.fluents.length → encoding.domain.Wins s →
      encoding.domain.WinsWithin solution.iterations s
  takes : ∀ s : List Bool, s.length = encoding.domain.fluents.length →
    encoding.domain.WinsWithin solution.iterations s → ¬ encoding.domain.isGoal s = .ok true →
      ∃ name, Takes encoding store solution.strategy s name ∧
        ∀ k, encoding.domain.WinsWithin k s → ∃ j < k, ∀ reaction,
          encoding.domain.Grounded name reaction →
            encoding.domain.WinsWithin j (encoding.domain.result name reaction s)

theorem Faithful.forces (h : Faithful registry origin domain mode encoding)
    (hdomain : domain.WellFormed) (hr : origin.Reduced) (hle : origin ≤ later)
    (hlater : later.Reduced)
    (hspace : origin.Denotes space fun a =>
      Usable domain (encoding.automaton.stateOf a) (encoding.action a))
    (hgoal : origin.Denotes goal fun a =>
      Reached domain (encoding.automaton.stateOf a) (encoding.action a))
    (hanswer : Game.Answered origin later (agentGame encoding.automaton maxIterations) .adversarial
      goal space solution) :
    Forces encoding later solution := by
  have hclosed : (agentGame encoding.automaton maxIterations).Closed origin goal space :=
    h.game_closed hr hspace hgoal
  have hsolved := hanswer.solved hclosed
  obtain rfl := h.domain_eq
  obtain rfl := h.mode_eq
  have hlayer : ∀ (k : Nat) (s : List Bool), s.length = encoding.domain.fluents.length →
      (s ++ flags encoding.mode false false ∈
        Game.layer (agentGame encoding.automaton maxIterations) origin goal space k ↔
          encoding.domain.WinsWithin k s) := fun k s hs => h.mem_layer_iff hdomain hspace hgoal hs
  refine ⟨⟨_, hanswer.states.congr fun a => hclosed.statesAfter_iff _ (Automaton.stateOf_length _ a),
    hlayer _⟩, ?_, fun hfalse s hs hwins => ?_, fun s hs hwins hnot => ?_⟩
  · rw [hsolved.realizable, ← hlayer _ _ hdomain.initial_length, ← initialState_eq, ← h.initial_eq]
    rfl
  · have hlength := h.length_state hdomain hs false false
    rw [← hlayer _ s hs, hsolved.stable hfalse _ hlength]
    exact h.mem_attractor_of_wins hdomain hspace hgoal hwins hs
  · have hlength := h.length_state hdomain hs false false
    have hmem := (hlayer _ s hs).2 hwins
    -- the layer in which the state is new
    obtain ⟨j, hold, hnew⟩ := Nat.exists_not_and_succ_of_not_zero_of_exists
      (p := fun k => s ++ flags encoding.mode false false ∈
        Game.layer (agentGame encoding.automaton maxIterations) origin goal space k)
      (fun hbase => hnot (h.winsWithin_zero_of_mem_base hdomain hgoal hs hbase).2) ⟨_, hmem⟩
    have hlt : ∀ k, encoding.domain.WinsWithin k s → j < k := fun k hk => by
      by_contra hle
      exact hold (Game.layer_mono (Nat.not_lt.1 hle) ((hlayer k s hs).2 hk))
    have hfound : ∀ X Y, Game.movesAfter (agentGame encoding.automaton maxIterations) origin
        .adversarial goal space solution.iterations (s ++ flags encoding.mode false false) X Y ↔
        encoding.automaton.Holds origin space (s ++ flags encoding.mode false false) X Y ∧
          Game.leads (agentGame encoding.automaton maxIterations) origin
            (Game.layer (agentGame encoding.automaton maxIterations) origin goal space j)
            (s ++ flags encoding.mode false false) X Y := fun X Y => by
      rw [hclosed.movesAfter_iff _ hlength, Game.found_iff_of_mem (hlt _ hwins) hnew,
        Game.found_succ_of_not_mem j hold]
      rfl
    obtain ⟨Y₀, hY₀⟩ := hclosed.picks_found_of_mem hlength _ hmem
    obtain ⟨Y, name, hname, htakes, hmoves⟩ := h.exists_takes hdomain hr hle hlater hspace hclosed
      hanswer (hclosed.unseeing_adversarial rfl rfl _) hs
      ⟨Y₀, Y₀, (hclosed.movesAfter_iff _ hlength).2 (hY₀ Y₀)⟩
    refine ⟨name, htakes, fun k hk => ⟨j, hlt k hk, fun reaction hgrounded => ?_⟩⟩
    obtain ⟨X, hX⟩ := h.exists_successor_eq hdomain hs hname htakes.applicable hgrounded
    have hleads := ((hfound X Y).1 (hmoves X)).2 X (by simp [Automaton.Holds, agentGame])
    rw [← hlayer j _ ((Domain.result_length _ _ _ _).trans hs), ← hX]
    exact hleads

end Adversarial

section Cooperative

/-- A state and a choice that play may use, in which the environment has kept to its rules and a
given set is reached. -/
structure Targets (domain : Domain) (W : Set (List Bool)) (s : List Bool) (name : Option String) :
    Prop where
  usable : Usable domain s name
  lawful : ¬ s[domain.fluents.length]? = some true
  target : s ∈ W

/-- What the solution of the game with a helping environment says about the domain. -/
structure Assists (encoding : Encoding) (store : Store) (solution : Solution) : Prop where
  states : ∀ s : List Bool, s.length = encoding.domain.fluents.length →
    (encoding.automaton.satisfies store solution.winningStates
        (s ++ flags encoding.mode false false) = true ↔
      encoding.domain.HelpedWithin solution.iterations s)
  nearest : ¬ encoding.domain.Wins encoding.domain.initial → ∀ s : List Bool,
    s.length = encoding.domain.fluents.length →
      (encoding.domain.HelpedWithin solution.iterations s ↔ encoding.domain.NoFarther s)
  takes : ∀ s : List Bool, s.length = encoding.domain.fluents.length →
    encoding.domain.HelpedWithin solution.iterations s → ¬ encoding.domain.Wins s →
      ∃ name, Takes encoding store solution.strategy s name ∧
        ∀ k, encoding.domain.HelpedWithin k s → ∃ j < k, ∃ reaction,
          encoding.domain.Grounded name reaction ∧
            encoding.domain.HelpedWithin j (encoding.domain.result name reaction s)

variable {W : Set (List Bool)}

/-- The bit `env_err` stays set. -/
theorem Faithful.envError_kept (h : Faithful registry origin domain mode encoding)
    (ht : t.length = encoding.automaton.stateVars.length)
    (henv : t[domain.fluents.length]? = some true) :
    (encoding.automaton.successor origin t X Y)[domain.fluents.length]? = some true := by
  classical
  have hbit : (Bit.all domain mode)[domain.fluents.length]? = some .envError := by
    simp [Bit.all]
  rw [h.successor_eq ht, List.getElem?_map, hbit, Option.map_some, Option.some.injEq,
    decide_eq_true_iff]
  exact .inl henv

variable (h : Faithful registry origin domain mode encoding) (hdomain : domain.WellFormed)
  (hspace : origin.Denotes space fun a =>
    Usable domain (encoding.automaton.stateOf a) (encoding.action a))
  (hgoal : origin.Denotes goal fun a =>
    Targets domain W (encoding.automaton.stateOf a) (encoding.action a))

include h hgoal in
/-- Once the environment has broken its rules there is no more help. -/
theorem Faithful.not_mem_helped_of_envError {k : Nat}
    (ht : t.length = encoding.automaton.stateVars.length)
    (henv : t[domain.fluents.length]? = some true) :
    t ∉ Game.helped (agentGame encoding.automaton maxIterations) origin goal space k := by
  induction k generalizing t with
  | zero =>
    rintro ⟨X, Y, -, hholds⟩
    exact ((h.holds_iff hgoal ht X Y).1 hholds).lawful henv
  | succ k ih =>
    rintro (hmem | ⟨X, Y, -, hmem⟩)
    · exact ih ht henv hmem
    · exact ih (Automaton.successor_length h.closed) (h.envError_kept ht henv) hmem

omit hgoal in
include h hdomain hspace in
/-- Where the environment has to keep to its rules, a safe move into a set is an applicable action
with a reaction that it has. -/
theorem Faithful.exists_safe_move_iff {V : Set (List Bool)}
    (hV : ∀ t : List Bool, t.length = encoding.automaton.stateVars.length →
      t[domain.fluents.length]? = some true → t ∉ V)
    (hs : s.length = domain.fluents.length) :
    (∃ X Y, encoding.automaton.Holds origin space (s ++ flags mode false false) X Y ∧
        encoding.automaton.successor origin (s ++ flags mode false false) X Y ∈ V) ↔
      domain.Admits s ∧ ∃ name reaction, domain.Applicable name s ∧ domain.Grounded name reaction ∧
        domain.result name reaction s ++ flags mode false false ∈ V := by
  have hlength := h.length_state hdomain hs false false
  constructor
  · rintro ⟨X, Y, hholds, hmem⟩
    have husable := (h.holds_iff hspace hlength X Y).1 hholds
    obtain ⟨hadmits, name, hY, happ⟩ := (usable_append_iff hdomain hs).1 husable
    obtain ⟨reaction, hgrounded, hnext⟩ | herror := h.successor_cases hdomain hs hY happ X
    · exact ⟨hadmits, name, reaction, happ, hgrounded, hnext ▸ hmem⟩
    · rw [herror] at hmem
      exact absurd hmem
        (hV _ (h.length_state hdomain hs true false) (getElem?_envError hs mode true false))
  · rintro ⟨hadmits, name, reaction, happ, hgrounded, hmem⟩
    obtain ⟨Y, hY⟩ := h.exists_action (exists_of_applicable happ)
    obtain ⟨X, hX⟩ := h.exists_successor_eq hdomain hs hY happ hgrounded
    exact ⟨X, Y, (h.holds_iff hspace hlength X Y).2
      ((usable_append_iff hdomain hs).2 ⟨hadmits, name, hY, happ⟩), hX ▸ hmem⟩

include h hdomain hspace hgoal

/-- The base has the states with an applicable action in which the target is reached. -/
theorem Faithful.mem_base_targets_iff (hs : s.length = domain.fluents.length) :
    s ++ flags mode false false ∈
        Game.base (agentGame encoding.automaton maxIterations) origin goal space ↔
      domain.Admits s ∧ (∃ name, domain.Applicable name s) ∧ s ++ flags mode false false ∈ W := by
  have hlength := h.length_state hdomain hs false false
  constructor
  · rintro ⟨X, Y, -, hholds⟩
    obtain ⟨husable, -, htarget⟩ := (h.holds_iff hgoal hlength X Y).1 hholds
    obtain ⟨hadmits, name, -, happ⟩ := (usable_append_iff hdomain hs).1 husable
    exact ⟨hadmits, ⟨name, happ⟩, htarget⟩
  · rintro ⟨hadmits, ⟨name, happ⟩, htarget⟩
    obtain ⟨Y, hY⟩ := h.exists_action (exists_of_applicable happ)
    have husable : Usable domain (s ++ flags mode false false) (encoding.action Y) :=
      (usable_append_iff hdomain hs).2 ⟨hadmits, name, hY, happ⟩
    refine ⟨Y, Y, (h.holds_iff hspace hlength Y Y).2 husable,
      (h.holds_iff hgoal hlength Y Y).2 ⟨husable, ?_, htarget⟩⟩
    rw [getElem?_envError hs]
    simp

/-- The states without errors that are found with help are those from which the environment can
help the agent to the target. -/
theorem Faithful.mem_helped_iff_reachesWithin {T : List Bool → Prop}
    (hW : ∀ s : List Bool, s.length = domain.fluents.length →
      (s ++ flags mode false false ∈ W ↔ T s))
    {k : Nat} (hs : s.length = domain.fluents.length) :
    s ++ flags mode false false ∈
        Game.helped (agentGame encoding.automaton maxIterations) origin goal space k ↔
      domain.ReachesWithin T k s := by
  induction k generalizing s with
  | zero =>
    rw [Domain.reachesWithin_zero, ← hW s hs]
    exact h.mem_base_targets_iff hdomain hspace hgoal hs
  | succ k ih =>
    have hstep := h.exists_safe_move_iff hdomain hspace
      (V := Game.helped (agentGame encoding.automaton maxIterations) origin goal space k)
      (fun t ht henv => h.not_mem_helped_of_envError hgoal ht henv) hs
    refine (or_congr (ih hs) hstep).trans ?_
    have hnext : ∀ name reaction, domain.result name reaction s ++ flags mode false false ∈
        Game.helped (agentGame encoding.automaton maxIterations) origin goal space k ↔
          domain.ReachesWithin T k (domain.result name reaction s) := fun name reaction =>
      ih ((domain.result_length _ _ _).trans hs)
    simp only [hnext]
    exact Domain.reachesWithin_succ.symm

/-- If the target is to have won, then these are the states that can be helped. -/
theorem Faithful.mem_helped_iff
    (hW : ∀ s : List Bool, s.length = domain.fluents.length →
      (s ++ flags mode false false ∈ W ↔ domain.Wins s))
    {k : Nat} (hs : s.length = domain.fluents.length) :
    s ++ flags mode false false ∈
        Game.helped (agentGame encoding.automaton maxIterations) origin goal space k ↔
      domain.HelpedWithin k s :=
  (h.mem_helped_iff_reachesWithin hdomain hspace hgoal hW hs).trans
    Domain.helpedWithin_iff_reachesWithin.symm

theorem Faithful.assists (hr : origin.Reduced) (hle : origin ≤ later) (hlater : later.Reduced)
    (hW : ∀ s : List Bool, s.length = domain.fluents.length →
      (s ++ flags mode false false ∈ W ↔ domain.Wins s))
    (hanswer : Game.Answered origin later (agentGame encoding.automaton maxIterations) .cooperative
      goal space solution) :
    Assists encoding later solution := by
  have hclosed : (agentGame encoding.automaton maxIterations).Closed origin goal space :=
    h.game_closed hr hspace hgoal
  have hone : (agentGame encoding.automaton maxIterations).constraint = .one := rfl
  obtain rfl := h.domain_eq
  obtain rfl := h.mode_eq
  have hhelped : ∀ (k : Nat) (s : List Bool), s.length = encoding.domain.fluents.length →
      (s ++ flags encoding.mode false false ∈
        Game.helped (agentGame encoding.automaton maxIterations) origin goal space k ↔
          encoding.domain.HelpedWithin k s) :=
    fun k s hs => h.mem_helped_iff hdomain hspace hgoal hW hs
  refine ⟨fun s hs => ?_, fun hnot s hs => ?_, fun s hs hwithin hnot => ?_⟩
  · have hlength := h.length_state hdomain hs false false
    rw [← hhelped _ s hs, Automaton.satisfies, hanswer.states.eval_iff]
    have hstate : (agentGame encoding.automaton maxIterations).arena.stateOf
        (encoding.automaton.valuation (s ++ flags encoding.mode false false) fun _ => false) =
          s ++ flags encoding.mode false false :=
      Valuation.map_assign _ h.closed.stateVars_nodup hlength
    rw [hstate]
    exact hclosed.statesAfter_iff_helped hone _ hlength
  · have hinitial : ∀ k, (agentGame encoding.automaton maxIterations).arena.initial ∈
        Game.helped (agentGame encoding.automaton maxIterations) origin goal space k ↔
          encoding.domain.HelpedWithin k encoding.domain.initial := by
      intro k
      rw [← hhelped k _ hdomain.initial_length, ← initialState_eq, ← h.initial_eq]
      rfl
    obtain ⟨k, hk, hhalts, hbefore⟩ := hanswer.ends
    simp only [hclosed.halts_cooperative_iff hone, hinitial] at hhalts hbefore
    rw [hk]
    constructor
    · -- the search ends as soon as the initial state is found
      refine fun hwithin => ⟨k + 1, hwithin, fun m hm => ?_⟩
      by_contra hlt
      have hpos : m ≠ 0 := by
        rintro rfl
        exact hnot (Domain.helpedWithin_zero.1 hm)
      refine hbefore (m - 1) (by omega) (.inl ?_)
      rwa [Nat.sub_add_cancel (Nat.pos_of_ne_zero hpos)]
    · rintro ⟨m, hm, hleast⟩
      obtain hfound | hstable := hhalts
      · exact hm.mono (hleast _ hfound)
      · obtain hkm | hmk := le_total k m
        · have hmem := Game.mem_helped_of_stable h.closed hkm hstable
            (h.length_state hdomain hs false false) ((hhelped m s hs).2 hm)
          exact ((hhelped k s hs).1 hmem).mono (Nat.le_succ k)
        · exact hm.mono (by omega)
  · have hlength := h.length_state hdomain hs false false
    have hmem := (hhelped _ s hs).2 hwithin
    -- the number of steps with which the state is new
    obtain ⟨j, hold, hnew⟩ := Nat.exists_not_and_succ_of_not_zero_of_exists
      (p := fun k => s ++ flags encoding.mode false false ∈
        Game.helped (agentGame encoding.automaton maxIterations) origin goal space k)
      (fun hbase => hnot (Domain.helpedWithin_zero.1 ((hhelped 0 s hs).1 hbase))) ⟨_, hmem⟩
    have hlt : ∀ k, encoding.domain.HelpedWithin k s → j < k := fun k hk => by
      by_contra hle
      exact hold (Game.helped_mono (Nat.not_lt.1 hle) ((hhelped k s hs).2 hk))
    obtain ⟨Y, name, hname, htakes, hmoves⟩ := h.exists_takes hdomain hr hle hlater hspace hclosed
      hanswer (hclosed.unseeing_cooperative hone rfl _) hs
      ((hclosed.exists_movesAfter_iff hone _ _ hlength).2 hmem)
    refine ⟨name, htakes, fun k hk => ⟨j, hlt k hk, ?_⟩⟩
    have hfound := hmoves Y
    rw [hclosed.movesAfter_of_mem hone (hlt _ hwithin) hlength hnew,
      hclosed.movesAfter_of_not_mem hone hlength hold] at hfound
    obtain ⟨X, hnext⟩ := hfound.2
    change encoding.automaton.successor origin _ X Y ∈ _ at hnext
    obtain ⟨reaction, hgrounded, hresult⟩ | herror :=
      h.successor_cases hdomain hs hname htakes.applicable X
    · rw [hresult, hhelped j _ ((Domain.result_length _ _ _ _).trans hs)] at hnext
      exact ⟨reaction, hgrounded, hnext⟩
    · rw [herror] at hnext
      exact absurd hnext (h.not_mem_helped_of_envError hgoal
        (h.length_state hdomain hs true false) (getElem?_envError hs _ true false))

end Cooperative

end PlanningGame.Encoding
