import Mathlib
import PlanningGame.Proofs.Encoding.Strategy

/-!
# Best effort in encoded domains

A play follows the strategy that is looked up again in every state. It stays in states without
errors. As long as no state is lost, the state that comes next is known: against every environment
play gets nearer to the goal, with the help of the environment it gets nearer to a state that is
won, and there the strategy changes. The search for help ends as soon as the initial state is
found, so a state is called lost if help would have to last longer than from the initial state.
-/
namespace PlanningGame

namespace BestEffort

variable {result : BestEffort} {store : Store} {s : List Bool}

theorem region_eq_winning_iff : result.region store s = .winning ↔
    result.arena.satisfies store result.adversarial.winningStates s = true := by
  unfold region
  split
  · next hwon => exact iff_of_true rfl hwon
  · next hnot =>
    refine iff_of_false ?_ hnot
    cases result.cooperative with
    | none => simp
    | some solution => dsimp only; split <;> simp

theorem region_eq_cooperative_iff : result.region store s = .cooperative ↔
    ¬ result.arena.satisfies store result.adversarial.winningStates s = true ∧
      ∃ solution, result.cooperative = some solution ∧
        result.arena.satisfies store solution.winningStates s = true := by
  unfold region
  split
  · next hwon => simp [hwon]
  · next hnot =>
    cases result.cooperative with
    | none => simp
    | some solution => simp [hnot]

/-- There is no strategy exactly for a state that is lost. -/
theorem strategy?_eq_none_iff : result.strategy? store s = none ↔
    result.region store s = .losing := by
  unfold strategy?
  cases hregion : result.region store s with
  | winning => simp
  | cooperative =>
    obtain ⟨-, solution, hsolution, -⟩ := region_eq_cooperative_iff.1 hregion
    simp [hsolution]
  | losing => simp

end BestEffort

namespace Encoding

open Manager

variable {registry : Registry} {origin store : Store} {manager : Manager} {domain : Domain}
  {mode : AgentErrorMode} {encoding : Encoding} {result : BestEffort} {s t : List Bool}
  {name reaction : String} {k n : Nat}

section Plays

variable (encoding : Encoding) (result : BestEffort) (store : Store)

/-- The strategy for a state chooses the action there, whatever the environment does. -/
def Decides (s : List Bool) (name : String) : Prop :=
  ∃ strategy, result.strategy? store s = some strategy ∧
    ∀ X, ∃ id, strategy.choice store s X = .ok id ∧ encoding.actionName? id = some name

/-- A round of a play: the agent follows the strategy for the state, and the environment gives a
reaction that the chosen action has. -/
def Round (s : List Bool) (name reaction : String) (t : List Bool) : Prop :=
  ∃ strategy X id, result.strategy? store s = some strategy ∧
    strategy.choice store s X = .ok id ∧ encoding.actionName? id = some name ∧
    encoding.reactionName? (Binary.decode (encoding.inputs.map X)) = some reaction ∧
    encoding.domain.Grounded name reaction ∧ strategy.next store s X = .ok t

/-- The states that plays visit after a number of rounds. Plays end with the goal. -/
inductive Visits (start : List Bool) : Nat → List Bool → Prop
  | start : Visits start 0 start
  | step {n : Nat} {s t : List Bool} {name reaction : String} (h : Visits start n s)
      (hgoal : ¬ encoding.domain.isGoal s = .ok true)
      (hround : Round encoding result store s name reaction t) : Visits start (n + 1) t

/-- A round with an applicable action, in which the environment keeps to its rules. -/
def LawfulRound (s t : List Bool) : Prop :=
  s[encoding.envErrorBit]? = some false ∧ t[encoding.envErrorBit]? = some false ∧
    ∃ name reaction, Decides encoding result store s name ∧ encoding.domain.Applicable name s ∧
      Round encoding result store s name reaction t

/-- What play does in a state without errors: the agent chooses the named action, which is
applicable, and every reaction that it has leads to the state that the domain says. -/
structure Proceeds (s : List Bool) (name : String) : Prop where
  applicable : encoding.domain.Applicable name s
  decides : Decides encoding result store (s ++ flags encoding.mode false false) name
  round : ∀ reaction, encoding.domain.Grounded name reaction →
    Round encoding result store (s ++ flags encoding.mode false false) name reaction
      (encoding.domain.result name reaction s ++ flags encoding.mode false false)
  only : ∀ chosen reaction t,
    Round encoding result store (s ++ flags encoding.mode false false) chosen reaction t →
      encoding.domain.Grounded name reaction ∧
        t = encoding.domain.result name reaction s ++ flags encoding.mode false false

end Plays

section Copies

variable {s t : Store} {encoding encoding' : Encoding} {result result' : BestEffort}
  (h : BestEffort.Copies s t result result') (hencoding : Encoding.Copies s t encoding encoding')
  (hpaired : s.Paired t)
include h hencoding hpaired

/-- Play goes on alike on copies. -/
theorem decides_eq : Decides encoding' result' t = Decides encoding result s := by
  funext state name
  refine propext (h.exists_strategy_iff hpaired state fun strategy strategy' hstrategy => ?_)
  simp only [hstrategy.choice_eq hpaired, actionName?, hencoding.agentNames_eq]

theorem round_eq : Round encoding' result' t = Round encoding result s := by
  funext state name reaction next
  unfold Round
  simp only [exists_and_left]
  refine propext (h.exists_strategy_iff hpaired state fun strategy strategy' hstrategy => ?_)
  simp only [hstrategy.choice_eq hpaired, hstrategy.next_eq hpaired, actionName?, reactionName?,
    hencoding.agentNames_eq, hencoding.reactionNames_eq, hencoding.inputs_eq, hencoding.domain_eq]

theorem visits_eq : Visits encoding' result' t = Visits encoding result s := by
  have hround := round_eq h hencoding hpaired
  funext start n state
  refine propext ⟨fun hvisits => ?_, fun hvisits => ?_⟩
  · induction hvisits with
    | start => exact .start
    | step _ hgoal hnext ih => exact .step ih (hencoding.domain_eq ▸ hgoal) (hround ▸ hnext)
  · induction hvisits with
    | start => exact .start
    | step _ hgoal hnext ih => exact .step ih (hencoding.domain_eq ▸ hgoal) (hround ▸ hnext)

theorem lawfulRound_eq : LawfulRound encoding' result' t = LawfulRound encoding result s := by
  funext state next
  unfold LawfulRound
  rw [decides_eq h hencoding hpaired, round_eq h hencoding hpaired, envErrorBit, envErrorBit,
    hencoding.domain_eq]

end Copies

/-- The reactions that an action has can be given. -/
theorem Faithful.exists_inputs (h : Faithful registry origin domain mode encoding)
    (hgrounded : domain.Grounded name reaction) :
    ∃ X, encoding.reactionName? (Binary.decode (encoding.inputs.map X)) = some reaction := by
  obtain ⟨X, hX⟩ := h.exists_reaction (hgrounded.imp fun _ h => ⟨h.1, h.2.2⟩)
  refine ⟨X, ?_⟩
  rw [h.inputs_eq]
  exact hX

/-- Play proceeds where the strategy for the state takes an action. -/
theorem Takes.proceeds {strategy : Strategy} (htakes : Takes encoding store strategy s name)
    (h : Faithful registry origin domain mode encoding)
    (hstrategy : result.strategy? store (s ++ flags encoding.mode false false) = some strategy) :
    Proceeds encoding result store s name := by
  obtain rfl := h.domain_eq
  refine ⟨htakes.applicable, ⟨strategy, hstrategy, htakes.choice⟩, fun reaction hgrounded => ?_, ?_⟩
  · obtain ⟨X, hX⟩ := h.exists_inputs hgrounded
    obtain ⟨id, hchoice, hid⟩ := htakes.choice X
    exact ⟨strategy, X, id, hstrategy, hchoice, hid, hX, hgrounded,
      htakes.next X reaction hX hgrounded⟩
  · rintro chosen reaction t ⟨strategy', X, id', hstrategy', hchoice', hid', hX, hgrounded, hnext⟩
    obtain rfl : strategy = strategy' := Option.some.inj (hstrategy.symm.trans hstrategy')
    obtain ⟨id, hchoice, hid⟩ := htakes.choice X
    obtain rfl : id = id' := Except.ok.inj (hchoice.symm.trans hchoice')
    obtain rfl : name = chosen := Option.some.inj (hid.symm.trans hid')
    exact ⟨hgrounded, (Except.ok.inj ((htakes.next X reaction hX hgrounded).symm.trans hnext)).symm⟩

section Solving

variable {room : Store → Prop}

theorem Faithful.delivers_cooperativeGoal_of_denotes (hm : Stands registry manager)
    (h : Faithful registry manager.store domain mode encoding) (hdomain : domain.WellFormed)
    (hroom : ∀ store, room store → Diagram.HasRoom store) {target space : Edge}
    {T : Valuation → Prop} (htarget : manager.store.Denotes target T)
    (hspace : manager.store.Denotes space fun a =>
      Usable domain (encoding.automaton.stateOf a) (encoding.action a)) :
    Manager.Delivers room registry (encoding.cooperativeGoal target space) manager
      fun e later => later.store.Denotes e fun a =>
        Usable domain (encoding.automaton.stateOf a) (encoding.action a) ∧
          ¬ (encoding.automaton.stateOf a)[domain.fluents.length]? = some true ∧ T a := by
  unfold cooperativeGoal
  apply (h.delivers_agentError hm hdomain hroom).bind
  intro agentError m₁ hm₁ hle₁ hagent
  apply (h.delivers_envError hm₁ hdomain hroom).bind
  intro envError m₂ hm₂ hle₂ henv
  have hle := (hle₁.trans hle₂).1
  have hagent := (hagent.mono hm₁.sound.toReduced hle₂.1).neg hm₂.sound.toReduced
  have hall : m₂.store.DenotesEach (fun P : Valuation → Prop => P) [_, _, _, _] _ :=
    .cons hagent (.cons (henv.neg hm₂.sound.toReduced)
      (.cons (htarget.mono hm.sound.toReduced hle) (.cons (hspace.mono hm.sound.toReduced hle) .nil)))
  refine (delivers_lift hm₂ ((Diagram.ensures_conjAll_each hm₂.sound hall).delivers.mono
    hroom)).weaken fun e later _ _ he => he.congr fun a => ?_
  simp only [List.forall_mem_cons, List.not_mem_nil, IsEmpty.forall_iff, implies_true, and_true]
  constructor
  · exact fun ⟨_, hlawful, htarget, husable⟩ => ⟨husable, hlawful, htarget⟩
  · exact fun ⟨husable, hlawful, htarget⟩ => ⟨husable.blameless, hlawful, htarget, husable⟩

theorem Faithful.delivers_cooperativeGoal (hm : Stands registry manager)
    (h : Faithful registry manager.store domain mode encoding) (hdomain : domain.WellFormed)
    (hroom : ∀ store, room store → Diagram.HasRoom store) {target space : Edge}
    {W : Set (List Bool)}
    (htarget : manager.store.Denotes target fun a => encoding.automaton.stateOf a ∈ W)
    (hspace : manager.store.Denotes space fun a =>
      Usable domain (encoding.automaton.stateOf a) (encoding.action a)) :
    Manager.Delivers room registry (encoding.cooperativeGoal target space) manager
      fun e later => later.store.Denotes e fun a =>
        Targets domain W (encoding.automaton.stateOf a) (encoding.action a) :=
  (h.delivers_cooperativeGoal_of_denotes hm hdomain hroom htarget hspace).weaken
    fun _ _ _ _ he => he.congr fun _ => ⟨fun ⟨husable, hlawful, htarget⟩ =>
      ⟨husable, hlawful, htarget⟩, fun h => ⟨h.usable, h.lawful, h.target⟩⟩

/-- The solution against every environment says what it does in every later store. -/
theorem Faithful.yields_forces (hm : Stands registry manager)
    (h : Faithful registry manager.store domain mode encoding) (hdomain : domain.WellFormed)
    (maxIterations : Option Nat) :
    Manager.Yields registry (encoding.solveAdversarial maxIterations) manager fun solution later =>
      ∀ last : Store, last.Sound → later.store ≤ last → Forces encoding last solution := by
  have hdelivers : Manager.Delivers (fun _ => False) registry
      (encoding.solveAdversarial maxIterations) manager fun solution later =>
        ∀ last : Store, last.Sound → later.store ≤ last → Forces encoding last solution :=
    h.delivers_solveAdversarial hm hdomain (fun _ => False.elim)
      fun now space goal hnow h₂ hspace hgoal => by
        have hclosed : (agentGame encoding.automaton maxIterations).Closed now.store goal space :=
          h₂.game_closed hnow.sound.toReduced hspace hgoal
        refine (delivers_lift hnow (Game.delivers_search (fun _ => False.elim) hnow.sound
          hclosed.readable (fun _ _ _ => id) (h₂.outputs_ne_zero maxIterations))).weaken
            fun solution later hlater hle hanswer last hlast hle' => ?_
        exact h₂.forces hdomain hnow.sound.toReduced (hle.1.trans hle') hlast.toReduced hspace hgoal
          (hanswer.mono hlater.sound.toReduced hle')
  exact hdelivers.yields

end Solving

/-- What a best effort says about the domain. -/
structure Settles (encoding : Encoding) (store : Store) (result : BestEffort) : Prop where
  arena : result.arena = encoding.automaton
  forces : Forces encoding store result.adversarial
  skipped : result.adversarial.realizable = true → result.cooperative = none
  assists : result.adversarial.realizable = false →
    ∃ solution, result.cooperative = some solution ∧ Assists encoding store solution

theorem Faithful.yields_solveBestEffort (hm : Stands registry manager)
    (h : Faithful registry manager.store domain mode encoding) (hdomain : domain.WellFormed)
    (maxIterations : Option Nat) :
    Manager.Yields registry (encoding.solveBestEffort maxIterations) manager fun result later =>
      Settles encoding later.store result := by
  unfold solveBestEffort
  dsimp only
  apply (yields_lift hm (h.ensures_stateSpace hdomain hm.sound).yields).bind
  intro space m₁ hm₁ hle₁ hspace
  have h₁ := h.mono hm.sound.toReduced hle₁.1 le_rfl
  apply (h₁.yields_forces hm₁ hdomain maxIterations).bind
  intro adversarial m₂ hm₂ hle₂ hforces
  have h₂ := h₁.mono hm₁.sound.toReduced hle₂.1 le_rfl
  have hspace := hspace.mono hm₁.sound.toReduced hle₂.1
  split
  · next hrealizable =>
    refine yields_note_bind hm₂ _ _ fun later hlater hle => yields_pure hlater ?_
    exact ⟨rfl, hforces _ hlater.sound hle.1, fun _ => rfl, fun hfalse => by simp_all⟩
  · next hunrealizable =>
    have hunrealizable : adversarial.realizable = false := by simpa using hunrealizable
    refine yields_note_bind hm₂ _ _ fun m₃ hm₃ hle₃ => ?_
    obtain ⟨W, hW, hmem⟩ := (hforces _ hm₃.sound hle₃.1).winning
    have h₃ := h₂.mono hm₂.sound.toReduced hle₃.1 le_rfl
    have hspace := hspace.mono hm₂.sound.toReduced hle₃.1
    apply (h₃.delivers_cooperativeGoal hm₃ hdomain (fun _ => False.elim) hW hspace).yields.bind
    intro goal m₄ hm₄ hle₄ hgoal
    have h₄ := h₃.mono hm₃.sound.toReduced hle₄.1 le_rfl
    have hspace := hspace.mono hm₃.sound.toReduced hle₄.1
    have hclosed : (agentGame encoding.automaton maxIterations).Closed m₄.store goal space :=
      h₄.game_closed hm₄.sound.toReduced hspace hgoal
    apply (yields_lift hm₄ (Game.yields_search hm₄.sound hclosed.readable)).bind
    intro cooperative m₅ hm₅ hle₅ hanswer
    refine yields_note_bind hm₅ _ _ fun later hlater hle => yields_pure hlater ?_
    have hforces := hforces later.store hlater.sound
      (hle₃.trans (hle₄.trans (hle₅.trans hle))).1
    refine ⟨rfl, hforces, fun htrue => by simp_all, fun _ => ⟨cooperative, rfl, ?_⟩⟩
    refine h₄.assists hdomain hspace hgoal hm₄.sound.toReduced (hle₅.trans hle).1
      hlater.sound.toReduced (fun s hs => ?_) (hanswer.mono hm₅.sound.toReduced hle.1)
    obtain rfl := h.domain_eq
    obtain rfl := h.mode_eq
    exact (hmem s hs).trans ⟨fun hwins => hwins.wins, hforces.complete hunrealizable s hs⟩

section Regions

variable (hresult : Settles encoding store result)
  (h : Faithful registry origin encoding.domain encoding.mode encoding)
  (hdomain : encoding.domain.WellFormed)

include hresult h hdomain

theorem Settles.satisfies_winningStates_iff (hs : s.length = encoding.domain.fluents.length) :
    result.arena.satisfies store result.adversarial.winningStates
        (s ++ flags encoding.mode false false) = true ↔
      encoding.domain.WinsWithin result.adversarial.iterations s := by
  obtain ⟨W, hW, hmem⟩ := hresult.forces.winning
  have hstate : encoding.automaton.stateOf
      (encoding.automaton.valuation (s ++ flags encoding.mode false false) fun _ => false) =
        s ++ flags encoding.mode false false :=
    Valuation.map_assign _ h.closed.stateVars_nodup (h.length_state hdomain hs false false)
  rw [hresult.arena, Automaton.satisfies, hW.eval_iff, hstate, hmem s hs]

theorem Settles.region_eq_winning_iff (hs : s.length = encoding.domain.fluents.length) :
    result.region store (s ++ flags encoding.mode false false) = .winning ↔
      encoding.domain.WinsWithin result.adversarial.iterations s := by
  rw [BestEffort.region_eq_winning_iff, hresult.satisfies_winningStates_iff h hdomain hs]

/-- Where a solution with help exists, the states that are not won are those from which help takes
no more steps than its iterations. -/
theorem Settles.region_eq_cooperative_iff (hs : s.length = encoding.domain.fluents.length)
    {solution : Solution} (hsolution : result.cooperative = some solution)
    (hassists : Assists encoding store solution) :
    result.region store (s ++ flags encoding.mode false false) = .cooperative ↔
      ¬ encoding.domain.WinsWithin result.adversarial.iterations s ∧
        encoding.domain.HelpedWithin solution.iterations s := by
  rw [BestEffort.region_eq_cooperative_iff, hresult.satisfies_winningStates_iff h hdomain hs,
    ← hassists.states s hs, ← hresult.arena]
  simp only [hsolution, Option.some.injEq, exists_eq_left']

/-- In a state that is won play goes on, and gets nearer to the goal with every reaction. -/
theorem Settles.proceeds_of_winsWithin (hs : s.length = encoding.domain.fluents.length)
    (hwins : encoding.domain.WinsWithin result.adversarial.iterations s)
    (hgoal : ¬ encoding.domain.isGoal s = .ok true) :
    ∃ name, Proceeds encoding result store s name ∧
      ∀ k, encoding.domain.WinsWithin k s → ∃ j < k, ∀ reaction,
        encoding.domain.Grounded name reaction →
          encoding.domain.WinsWithin j (encoding.domain.result name reaction s) := by
  obtain ⟨name, htakes, hnext⟩ := hresult.forces.takes s hs hwins hgoal
  refine ⟨name, htakes.proceeds h ?_, hnext⟩
  rw [BestEffort.strategy?, (hresult.region_eq_winning_iff h hdomain hs).2 hwins]

/-- In a state that is not won but can be helped play goes on, and gets nearer to a state that is
won with some reaction. -/
theorem Settles.proceeds_of_helpedWithin (hs : s.length = encoding.domain.fluents.length)
    {solution : Solution} (hsolution : result.cooperative = some solution)
    (hassists : Assists encoding store solution)
    (hhelped : encoding.domain.HelpedWithin solution.iterations s)
    (hnot : ¬ encoding.domain.Wins s) :
    ∃ name, Proceeds encoding result store s name ∧
      ∀ k, encoding.domain.HelpedWithin k s → ∃ j < k, ∃ reaction,
        encoding.domain.Grounded name reaction ∧
          encoding.domain.HelpedWithin j (encoding.domain.result name reaction s) := by
  obtain ⟨name, htakes, hnext⟩ := hassists.takes s hs hhelped hnot
  refine ⟨name, htakes.proceeds h ?_, hnext⟩
  have hregion := (hresult.region_eq_cooperative_iff h hdomain hs hsolution hassists).2
    ⟨fun hwins => hnot hwins.wins, hhelped⟩
  rw [BestEffort.strategy?, hregion]
  simp [hsolution]

/-- In a state that is not lost and not a goal play goes on. If the initial state is won, it stays
among the states that are won. -/
theorem Settles.exists_proceeds (hs : s.length = encoding.domain.fluents.length)
    (hregion : result.region store (s ++ flags encoding.mode false false) ≠ .losing)
    (hgoal : ¬ encoding.domain.isGoal s = .ok true)
    (hwon : result.adversarial.realizable = true →
      encoding.domain.WinsWithin result.adversarial.iterations s) :
    ∃ name, Proceeds encoding result store s name ∧
      (result.adversarial.realizable = true → ∀ reaction, encoding.domain.Grounded name reaction →
        encoding.domain.WinsWithin result.adversarial.iterations
          (encoding.domain.result name reaction s)) := by
  by_cases hwins : encoding.domain.WinsWithin result.adversarial.iterations s
  · obtain ⟨name, hproceeds, hnext⟩ := hresult.proceeds_of_winsWithin h hdomain hs hwins hgoal
    obtain ⟨j, hj, hnext⟩ := hnext _ hwins
    exact ⟨name, hproceeds, fun _ reaction hgrounded => (hnext reaction hgrounded).mono hj.le⟩
  · have hunrealizable : result.adversarial.realizable = false := by
      simpa using mt hwon hwins
    obtain ⟨solution, hsolution, hassists⟩ := hresult.assists hunrealizable
    have hcooperative : result.region store (s ++ flags encoding.mode false false) =
        .cooperative := by
      cases hr : result.region store (s ++ flags encoding.mode false false) with
      | winning => exact absurd ((hresult.region_eq_winning_iff h hdomain hs).1 hr) hwins
      | cooperative => rfl
      | losing => exact absurd hr hregion
    have hhelped := ((hresult.region_eq_cooperative_iff h hdomain hs hsolution hassists).1
      hcooperative).2
    obtain ⟨name, hproceeds, -⟩ := hresult.proceeds_of_helpedWithin h hdomain hs hsolution hassists
      hhelped fun hw => hwins (hresult.forces.complete hunrealizable s hs hw)
    exact ⟨name, hproceeds, fun htrue => by simp_all⟩

/-- Plays visit states without errors. -/
theorem Settles.exists_of_visits {start : List Bool}
    (hstart : start = encoding.domain.initial ++ flags encoding.mode false false)
    (hvisits : Visits encoding result store start n t) :
    ∃ s, t = s ++ flags encoding.mode false false ∧ s.length = encoding.domain.fluents.length ∧
      (result.adversarial.realizable = true →
        encoding.domain.WinsWithin result.adversarial.iterations s) := by
  induction hvisits with
  | start => exact ⟨_, hstart, hdomain.initial_length, hresult.forces.realizable.1⟩
  | @step n t u name reaction _ hgoal hround ih =>
    obtain ⟨s, rfl, hs, hwon⟩ := ih
    have hregion : result.region store (s ++ flags encoding.mode false false) ≠ .losing := by
      obtain ⟨strategy, -, -, hstrategy, -⟩ := hround
      rw [Ne, ← BestEffort.strategy?_eq_none_iff, hstrategy]
      simp
    have hgoal := mt (hdomain.isGoal_append_iff hs).2 hgoal
    obtain ⟨chosen, hproceeds, hnext⟩ := hresult.exists_proceeds h hdomain hs hregion hgoal hwon
    obtain ⟨hgrounded, rfl⟩ := hproceeds.only _ _ _ hround
    exact ⟨_, rfl, (Domain.result_length _ _ _ _).trans hs,
      fun htrue => hnext htrue reaction hgrounded⟩

/-- A state without errors is won, can be helped in time, or is lost. -/
theorem Settles.region_iff (hs : s.length = encoding.domain.fluents.length)
    (hwon : result.adversarial.realizable = true →
      encoding.domain.WinsWithin result.adversarial.iterations s) :
    (result.region store (s ++ flags encoding.mode false false) = .winning ↔
        encoding.domain.Wins s) ∧
      (result.region store (s ++ flags encoding.mode false false) = .cooperative ↔
        ¬ encoding.domain.Wins s ∧ encoding.domain.NoFarther s) ∧
      (result.region store (s ++ flags encoding.mode false false) = .losing ↔
        ¬ encoding.domain.NoFarther s) := by
  have hnear : encoding.domain.Wins s → encoding.domain.NoFarther s := Domain.Wins.noFarther
  have hwinning := hresult.region_eq_winning_iff h hdomain hs
  cases hrealizable : result.adversarial.realizable with
  | true =>
    have hwins := hwon hrealizable
    rw [hwinning.2 hwins]
    simp [hwins.wins, hnear hwins.wins]
  | false =>
    obtain ⟨solution, hsolution, hassists⟩ := hresult.assists hrealizable
    have hcooperative :=
      hresult.region_eq_cooperative_iff h hdomain hs hsolution hassists
    have hiff : encoding.domain.WinsWithin result.adversarial.iterations s ↔
        encoding.domain.Wins s := ⟨fun hw => hw.wins, hresult.forces.complete hrealizable s hs⟩
    have hinitial : ¬ encoding.domain.Wins encoding.domain.initial := fun hw => by
      have := hresult.forces.realizable.2
        (hresult.forces.complete hrealizable _ hdomain.initial_length hw)
      simp_all
    rw [hiff] at hwinning hcooperative
    rw [hassists.nearest hinitial s hs] at hcooperative
    refine ⟨hwinning, hcooperative, ?_⟩
    cases hregion : result.region store (s ++ flags encoding.mode false false) with
    | winning => simp [hnear (hwinning.1 hregion)]
    | cooperative => simp [(hcooperative.1 hregion).2]
    | losing =>
      simp only [hregion, reduceCtorEq, false_iff, true_iff] at hwinning hcooperative ⊢
      tauto

/-- From a state that can be helped lawful rounds lead to a state that is won. -/
theorem Settles.exists_lawfulRounds (hs : s.length = encoding.domain.fluents.length)
    {solution : Solution} (hsolution : result.cooperative = some solution)
    (hassists : Assists encoding store solution) (hhelped : encoding.domain.HelpedWithin k s)
    (hle : k ≤ solution.iterations) :
    ∃ u : List Bool, u.length = encoding.domain.fluents.length ∧ encoding.domain.Wins u ∧
      Relation.ReflTransGen (LawfulRound encoding result store)
        (s ++ flags encoding.mode false false) (u ++ flags encoding.mode false false) := by
  induction k using Nat.strong_induction_on generalizing s with
  | _ k ih =>
    by_cases hwins : encoding.domain.Wins s
    · exact ⟨s, hs, hwins, .refl⟩
    · obtain ⟨name, hproceeds, hnext⟩ := hresult.proceeds_of_helpedWithin h hdomain hs hsolution
        hassists (hhelped.mono hle) hwins
      obtain ⟨j, hj, reaction, hgrounded, hhelped⟩ := hnext k hhelped
      have hlength := (Domain.result_length encoding.domain name reaction s).trans hs
      obtain ⟨u, hu, huwins, hrounds⟩ := ih j hj hlength hhelped (hj.le.trans hle)
      exact ⟨u, hu, huwins, .head ⟨getElem?_envError hs _ _ _, getElem?_envError hlength _ _ _, name,
        reaction, hproceeds.decides, (hdomain.applicable_append_iff hs).2 hproceeds.applicable,
        hproceeds.round reaction hgrounded⟩ hrounds⟩

/-- Plays from a state that is won in a number of rounds visit states that are won in the rounds
that are left. -/
theorem Settles.exists_left_of_visits (hs : s.length = encoding.domain.fluents.length)
    (hwins : encoding.domain.WinsWithin result.adversarial.iterations s)
    (hvisits : Visits encoding result store (s ++ flags encoding.mode false false) n t) :
    ∃ u left, t = u ++ flags encoding.mode false false ∧
      u.length = encoding.domain.fluents.length ∧ n + left ≤ result.adversarial.iterations ∧
      encoding.domain.WinsWithin left u := by
  induction hvisits with
  | start => exact ⟨s, _, rfl, hs, by omega, hwins⟩
  | step _ hgoal hround ih =>
    obtain ⟨u, left, rfl, hu, hle, hleft⟩ := ih
    obtain ⟨name, hproceeds, hnext⟩ := hresult.proceeds_of_winsWithin h hdomain hu
      (hleft.mono (by omega)) (mt (hdomain.isGoal_append_iff hu).2 hgoal)
    obtain ⟨hgrounded, rfl⟩ := hproceeds.only _ _ _ hround
    obtain ⟨j, hj, hnext⟩ := hnext left hleft
    exact ⟨_, j, rfl, (Domain.result_length _ _ _ _).trans hu, by omega, hnext _ hgrounded⟩

end Regions

/-- If the initial state is called cooperative then lawful rounds lead from it to a state that is
won. Every play from there goes on with applicable actions and any of their reactions until it
reaches the goal. -/
theorem Settles.reaches_goal (hresult : Settles encoding store result)
    (h : Faithful registry origin encoding.domain encoding.mode encoding)
    (hdomain : encoding.domain.WellFormed)
    (hinitial : result.arena.initial = encoding.domain.initial ++ flags encoding.mode false false)
    (hregion : result.region store result.arena.initial = .cooperative) :
    ∃ t, Relation.ReflTransGen (LawfulRound encoding result store) result.arena.initial t ∧
      result.arena.satisfies store result.adversarial.winningStates t = true ∧
      ∀ n u, Visits encoding result store t n u → ¬ encoding.domain.isGoal u = .ok true →
        n < result.adversarial.iterations ∧
          ∃ name, Decides encoding result store u name ∧ encoding.domain.Applicable name u ∧
            (∃ reaction, encoding.domain.Grounded name reaction) ∧
            ∀ reaction, encoding.domain.Grounded name reaction →
              ∃ v, Round encoding result store u name reaction v := by
  obtain ⟨-, solution, hsolution, -⟩ := BestEffort.region_eq_cooperative_iff.1 hregion
  have hunrealizable : result.adversarial.realizable = false := by
    by_contra htrue
    rw [hresult.skipped (by simpa using htrue)] at hsolution
    exact absurd hsolution (by simp)
  obtain ⟨solution, hsolution, hassists⟩ := hresult.assists hunrealizable
  rw [hinitial] at hregion ⊢
  have hhelped := ((hresult.region_eq_cooperative_iff h hdomain hdomain.initial_length
    hsolution hassists).1 hregion).2
  obtain ⟨s, hlength, hwins, hrounds⟩ := hresult.exists_lawfulRounds h hdomain
    hdomain.initial_length hsolution hassists hhelped le_rfl
  have hwithin := hresult.forces.complete hunrealizable s hlength hwins
  refine ⟨_, hrounds, (hresult.satisfies_winningStates_iff h hdomain hlength).2 hwithin,
    fun n t hvisits hgoal => ?_⟩
  obtain ⟨u, left, rfl, hu, hbound, hleft⟩ :=
    hresult.exists_left_of_visits h hdomain hlength hwithin hvisits
  obtain ⟨name, hproceeds, hnext⟩ := hresult.proceeds_of_winsWithin h hdomain hu
    (hleft.mono (by omega)) (mt (hdomain.isGoal_append_iff hu).2 hgoal)
  obtain ⟨j, hj, -⟩ := hnext left hleft
  exact ⟨by omega, name, hproceeds.decides,
    (hdomain.applicable_append_iff hu).2 hproceeds.applicable,
    hproceeds.applicable.exists_grounded,
    fun reaction hgrounded => ⟨_, hproceeds.round reaction hgrounded⟩⟩

section Compiled

variable {compiled current later : Manager} (hdomain : domain.WellFormed)
  (hconsistent : Consistent domain) (hs : manager.store.Replayable)
  (hsize : manager.registry.size < UInt32.size)
  (hcompile : (ofDomain domain mode).run.run manager = (.ok encoding, compiled))
  (hcurrent : current.store.Replayable) (hle : compiled ≤ current) {maxIterations : Option Nat}
  (hsolve : (encoding.solveBestEffort maxIterations).run.run current = (.ok result, later))
include hdomain hconsistent hs hsize hcompile hcurrent hle hsolve

/-- A best effort in a compiled domain has a copy in an ordered store, which settles what it
says. -/
theorem exists_settling_copy :
    ∃ (encoding' : Encoding) (result' : BestEffort) (origin last : Store),
      later.store.Paired last ∧ Encoding.Copies later.store last encoding encoding' ∧
      BestEffort.Copies later.store last result result' ∧
      Faithful current.registry origin domain mode encoding' ∧ Settles encoding' last result' ∧
      result'.arena.initial = domain.initial ++ flags mode false false := by
  obtain ⟨encoding', ordered, hm, hpaired, hfaithful, hencoding⟩ :=
    exists_faithful_copy hs hsize hconsistent hcompile hcurrent hle
  have hpaced := paced_solveBestEffort hpaired hencoding maxIterations
  obtain ⟨result', last, hsolve', hlast, hle', hcopies⟩ := hpaced.exists_answer hsolve
  obtain ⟨-, -, hresult⟩ :=
    hfaithful.yields_solveBestEffort hm hdomain maxIterations result' last hsolve'
  exact ⟨encoding', result', ordered.store, last.store, hlast.store,
    hencoding.mono (hpaced.le_of_answer hsolve).1 hle'.1, hcopies, hfaithful, hresult,
    by rw [hresult.arena, hfaithful.initial_eq, initialState_eq]⟩

end Compiled

/-- Compiled over any manager that has not run out of numbers for variables, and solved with best
effort in it later, a domain has exact regions: every state that a play visits is called winning
exactly if it is won, and cooperative exactly if it is not won but help takes no longer than from
the initial state. There is no strategy for the other states. -/
theorem region_exact {parts : DomainParts} (hparts : Domain.ofParts parts = .ok domain)
    (hconsistent : Consistent domain) (hs : manager.store.Replayable)
    (hsize : manager.registry.size < UInt32.size) {compiled current later : Manager}
    (hcompile : (ofDomain domain mode).run.run manager = (.ok encoding, compiled))
    (hcurrent : current.store.Replayable) (hle : compiled ≤ current) {maxIterations : Option Nat}
    (hsolve : (encoding.solveBestEffort maxIterations).run.run current = (.ok result, later))
    (hvisits : Visits encoding result later.store result.arena.initial n t) :
    ∃ s : List Bool, t = s ++ flags mode false false ∧ s.length = domain.fluents.length ∧
      (result.region later.store t = .winning ↔ domain.Wins s) ∧
      (result.region later.store t = .cooperative ↔ ¬ domain.Wins s ∧ domain.NoFarther s) ∧
      (result.region later.store t = .losing ↔ ¬ domain.NoFarther s) ∧
      (result.strategy? later.store t = none ↔ result.region later.store t = .losing) := by
  have hdomain := Domain.wellFormed_of_ofParts hparts
  obtain ⟨encoding', result', origin, last, hpaired, hencoding, hcopies, hfaithful, hresult,
    hinitial⟩ := exists_settling_copy hdomain hconsistent hs hsize hcompile hcurrent hle hsolve
  obtain rfl := hfaithful.domain_eq
  obtain rfl := hfaithful.mode_eq
  rw [← visits_eq hcopies hencoding hpaired, ← hcopies.arena.initial_eq] at hvisits
  obtain ⟨s, rfl, hlength, hwon⟩ := hresult.exists_of_visits hfaithful hdomain hinitial hvisits
  obtain ⟨hwinning, hcooperative, hlosing⟩ := hresult.region_iff hfaithful hdomain hlength hwon
  rw [hcopies.region_eq hpaired] at hwinning hcooperative hlosing
  exact ⟨s, rfl, hlength, hwinning, hcooperative, hlosing, BestEffort.strategy?_eq_none_iff⟩

/-- From an initial state that is called cooperative play goes on with an applicable action. A state
that comes next is lost if help takes longer from there. -/
theorem first_round (hdomain : domain.WellFormed) (hconsistent : Consistent domain)
    (hs : manager.store.Replayable) (hsize : manager.registry.size < UInt32.size)
    {compiled current later : Manager}
    (hcompile : (ofDomain domain mode).run.run manager = (.ok encoding, compiled))
    (hcurrent : current.store.Replayable) (hle : compiled ≤ current) {maxIterations : Option Nat}
    (hsolve : (encoding.solveBestEffort maxIterations).run.run current = (.ok result, later))
    (hnot : ¬ domain.Wins domain.initial) (hnear : domain.NoFarther domain.initial)
    (hgoal : ¬ domain.isGoal domain.initial = .ok true) :
    result.region later.store result.arena.initial = .cooperative ∧
      ∃ name, domain.Applicable name domain.initial ∧
        ∀ reaction, domain.Grounded name reaction →
          Visits encoding result later.store result.arena.initial 1
              (domain.result name reaction domain.initial ++ flags mode false false) ∧
            (¬ domain.NoFarther (domain.result name reaction domain.initial) →
              result.region later.store
                (domain.result name reaction domain.initial ++ flags mode false false) =
                  .losing) := by
  obtain ⟨encoding', result', origin, last, hpaired, hencoding, hcopies, hfaithful, hresult,
    hinitial⟩ := exists_settling_copy hdomain hconsistent hs hsize hcompile hcurrent hle hsolve
  obtain rfl := hfaithful.domain_eq
  obtain rfl := hfaithful.mode_eq
  have hwon : ∀ s, result'.adversarial.realizable = true →
      encoding'.domain.WinsWithin result'.adversarial.iterations s :=
    fun _ htrue => absurd (hresult.forces.realizable.1 htrue).wins hnot
  have hlength := hdomain.initial_length
  have hregion := (hresult.region_iff hfaithful hdomain hlength (hwon _)).2.1.2 ⟨hnot, hnear⟩
  obtain ⟨name, hproceeds, -⟩ :=
    hresult.exists_proceeds hfaithful hdomain hlength (by simp [hregion]) hgoal (hwon _)
  simp only [← hcopies.region_eq hpaired, ← visits_eq hcopies hencoding hpaired]
  rw [← hcopies.arena.initial_eq, hinitial]
  refine ⟨hregion, name, hproceeds.applicable, fun reaction hgrounded => ⟨?_, fun hfar => ?_⟩⟩
  · exact .step .start (mt (hdomain.isGoal_append_iff hlength).1 hgoal)
      (hproceeds.round reaction hgrounded)
  · exact (hresult.region_iff hfaithful hdomain
      ((Domain.result_length _ _ _ _).trans hlength) (hwon _)).2.2.2 hfar

/-- One action, whose reactions finish the work, lead away, lead back, or finish the work away from
home, where that is not allowed. -/
def detourParts : DomainParts where
  fluents := ["away", "done"]
  initial := [false, false]
  actions :=
    [{ name := "a", agent := "g", reaction := "r", adds := .ofList [1] },
      { name := "b", agent := "g", reaction := "s", adds := .ofList [0] },
      { name := "c", agent := "g", reaction := "t", deletes := .ofList [0] },
      { name := "d", agent := "g", reaction := "u", adds := .ofList [0, 1] }]
  goal := .ofList [1]
  goalForbidden := .ofList [0]
  invariants := [{ positive := .ofList [0, 1] }]

/-- The domain of these parts. -/
def detour : Domain where
  fluents := detourParts.fluents
  initial := detourParts.initial
  actions := Domain.actionsByName detourParts.actions
  goal := detourParts.goal
  goalForbidden := detourParts.goalForbidden
  invariants := detourParts.invariants

section Detour

theorem detour_actionList : detour.actionList = detourParts.actions := rfl

theorem detour_unconditional {action : Action} (h : action ∈ detour.actionList) :
    action.agent = "g" ∧ action.required = ∅ ∧ action.forbidden = ∅ := by
  simp only [detour_actionList, detourParts, List.mem_cons, List.not_mem_nil, or_false] at h
  rcases h with rfl | rfl | rfl | rfl <;> exact ⟨rfl, rfl, rfl⟩

theorem detour_consistent : Consistent detour := by
  constructor
  · intro i hi
    obtain rfl : 1 = i := by simpa [detour, detourParts] using hi
    simp [detour, detourParts]
  · intro action hmem i hi
    rw [(detour_unconditional hmem).2.1] at hi
    exact absurd hi Std.TreeSet.not_mem_emptyc

theorem detour_applicable_iff : detour.Applicable name s ↔ name = "g" := by
  constructor
  · rintro ⟨action, hfind, -⟩
    have hname : action.agent = name := by simpa using List.find?_some hfind
    exact hname.symm.trans (detour_unconditional (List.mem_of_find?_eq_some hfind)).1
  · rintro rfl
    refine ⟨detourParts.actions[0], rfl, fun i hi => ?_, fun i hi => ?_⟩
    all_goals exact absurd hi Std.TreeSet.not_mem_emptyc

theorem detour_grounded_iff : detour.Grounded "g" reaction ↔ reaction ∈ ["r", "s", "t", "u"] := by
  simp [Domain.Grounded, detour_actionList, detourParts, eq_comm]

theorem detour_admits {away done : Bool} (h : (away && done) = false) :
    detour.Admits [away, done] := by
  intro invariant hmem
  have hmem : invariant ∈ detourParts.invariants := hmem
  obtain rfl := List.mem_singleton.1 hmem
  refine ⟨fun i hi hholds => ⟨fun j hj hne => ?_, fun j hj => ?_⟩, fun i hi => ?_⟩
  · simp at hi hj
    rcases hi with rfl | rfl <;> rcases hj with rfl | rfl <;> simp_all
  all_goals exact absurd ‹_› Std.TreeSet.not_mem_emptyc

/-- The reaction that leads away can be given again and again, so that only the goal is won. -/
theorem isGoal_of_detour_wins (h : detour.Wins s) : detour.isGoal s = .ok true := by
  induction h with
  | goal _ _ hgoal => exact hgoal
  | @step s name _ happ _ ih =>
    obtain rfl := detour_applicable_iff.1 happ
    have haway := (Domain.isGoal_eq_true_iff.1 (ih "s" (detour_grounded_iff.2 (by simp)))).2 0
      (by simp [detour, detourParts])
    rw [Domain.getElem?_result] at haway
    have hadds : (detour.pairsOf "g" "s").any (·.adds.contains 0) = true := by cbv
    simp [hadds] at haway

/-- From these states one more reaction finishes the work. -/
theorem detour_wins_result (h : reaction = "r" ∧ s = [false, false] ∨ reaction = "t" ∧ s = [true, true]) :
    detour.Wins (detour.result "g" reaction s) := by
  have hresult : detour.result "g" reaction s = [false, true] := by
    rcases h with ⟨rfl, rfl⟩ | ⟨rfl, rfl⟩ <;> cbv
  rw [hresult]
  exact .goal (detour_admits rfl) (detour_applicable_iff.2 rfl) (by cbv)

theorem detour_helpedWithin_one : detour.HelpedWithin 1 detour.initial :=
  .step (detour_admits rfl) (detour_applicable_iff.2 rfl) (detour_grounded_iff.2 (by simp))
    (.won (detour_wins_result (.inl ⟨rfl, rfl⟩)))

theorem detour_not_wins_initial : ¬ detour.Wins detour.initial :=
  fun h => absurd (isGoal_of_detour_wins h) (by cbv; simp)

theorem detour_noFarther_iff : detour.NoFarther s ↔ detour.HelpedWithin 1 s := by
  constructor
  · rintro ⟨k, hk, hleast⟩
    exact hk.mono (hleast 1 detour_helpedWithin_one)
  · refine fun h => ⟨1, h, fun m hm => Nat.pos_of_ne_zero ?_⟩
    rintro rfl
    exact detour_not_wins_initial (Domain.helpedWithin_zero.1 hm)

theorem detour_initial_not_goal : ¬ detour.isGoal detour.initial = .ok true := by
  cbv
  simp

/-- From away the way leads back first. -/
theorem detour_helpedWithin_two : detour.HelpedWithin 2 [true, false] := by
  have hback : detour.result "g" "t" [true, false] = detour.initial := by cbv
  exact .step (detour_admits rfl) (detour_applicable_iff.2 rfl) (detour_grounded_iff.2 (by simp))
    (hback ▸ detour_helpedWithin_one)

theorem detour_far_away : ¬ detour.HelpedWithin 1 [true, false] := by
  intro h
  cases h with
  | won hwins => exact absurd (isGoal_of_detour_wins hwins) (by cbv; simp)
  | @step _ _ name reaction _ happ hgrounded hnext =>
    obtain rfl := detour_applicable_iff.1 happ
    have hgoal := isGoal_of_detour_wins (Domain.helpedWithin_zero.1 hnext)
    have hreaction := detour_grounded_iff.1 hgrounded
    simp only [List.mem_cons, List.not_mem_nil, or_false] at hreaction
    rcases hreaction with rfl | rfl | rfl | rfl <;> exact absurd hgoal (by cbv; simp)

/-- No help is sought from a state that does not satisfy the invariant. -/
theorem detour_far_clash : ¬ detour.HelpedWithin 1 [true, true] := by
  intro h
  have hholds := h.admits { positive := .ofList [0, 1] } List.mem_cons_self
  exact absurd ((hholds.positive 0 (by simp) rfl).1 1 (by simp) (by simp)) (by simp)

/-- In a new manager the detour is compiled and solved. -/
theorem detour_runs : ∃ (manager compiled later : Manager) (encoding : Encoding)
    (result : BestEffort), Manager.create ⟨1, 1⟩ {} = .ok manager ∧ manager.store.Replayable ∧
      manager.registry.size < UInt32.size ∧ compiled.store.Replayable ∧
      (ofDomain detour .invariant).run.run manager = (.ok encoding, compiled) ∧
      (encoding.solveBestEffort none).run.run compiled = (.ok result, later) := by
  let manager : Manager := { store := .blank }
  have hs : manager.store.Replayable := Store.replayable_blank
  have hok : answersWith (ofDomain detour .invariant) manager (fun encoding compiled =>
      answersWith (encoding.solveBestEffort none) compiled fun _ _ => true) = true := by
    set_option maxRecDepth 1500 in cbv
  obtain ⟨encoding, compiled, hcompile, hok⟩ := exists_run_of_answersWith hok
  obtain ⟨result, later, hsolve, -⟩ := exists_run_of_answersWith hok
  exact ⟨manager, compiled, later, encoding, result, rfl, hs, by decide,
    replayable_of_compiled hs hcompile, hcompile, hsolve⟩

/-- The initial state of the detour is not won, but one reaction helps. So it is called
cooperative. -/
theorem detour_region_exact :
    ∃ (manager compiled later : Manager) (encoding : Encoding) (result : BestEffort),
      Manager.create ⟨1, 1⟩ {} = .ok manager ∧ Domain.ofParts detourParts = .ok detour ∧
      Consistent detour ∧ manager.store.Replayable ∧ manager.registry.size < UInt32.size ∧
      (ofDomain detour .invariant).run.run manager = (.ok encoding, compiled) ∧
      compiled.store.Replayable ∧
      (encoding.solveBestEffort none).run.run compiled = (.ok result, later) ∧
      Visits encoding result later.store result.arena.initial 0 result.arena.initial ∧
      result.region later.store result.arena.initial = .cooperative ∧
      ∃ s, result.arena.initial = s ++ [false] ∧ ¬ detour.Wins s ∧ detour.NoFarther s := by
  obtain ⟨manager, compiled, later, encoding, result, hcreate, hs, hsize, hcompiled, hcompile,
    hsolve⟩ := detour_runs
  have hparts : Domain.ofParts detourParts = .ok detour := rfl
  have hvisits : Visits encoding result later.store result.arena.initial 0 result.arena.initial :=
    .start
  obtain ⟨hcooperative, -⟩ := first_round (Domain.wellFormed_of_ofParts hparts) detour_consistent hs
    hsize hcompile hcompiled le_rfl hsolve detour_not_wins_initial
    (detour_noFarther_iff.2 detour_helpedWithin_one) detour_initial_not_goal
  obtain ⟨s, hstate, hlength, hregion⟩ :=
    region_exact hparts detour_consistent hs hsize hcompile hcompiled le_rfl hsolve hvisits
  exact ⟨manager, compiled, later, encoding, result, hcreate, hparts, detour_consistent, hs, hsize,
    hcompile, hcompiled, hsolve, hvisits, hcooperative, s, hstate, (hregion.2.1.1 hcooperative).1,
    (hregion.2.1.1 hcooperative).2⟩

/-- Two states that plays of the detour visit are called losing. From the first, two more rounds
lead to the goal with the help of the environment, which is longer than from the initial state. From
the second one round does, but the state does not satisfy the invariant. -/
theorem detour_losing :
    ∃ (manager compiled later : Manager) (encoding : Encoding) (result : BestEffort),
      Manager.create ⟨1, 1⟩ {} = .ok manager ∧ Domain.ofParts detourParts = .ok detour ∧
      Consistent detour ∧
      (ofDomain detour .invariant).run.run manager = (.ok encoding, compiled) ∧
      (encoding.solveBestEffort none).run.run compiled = (.ok result, later) ∧
      (∀ s ∈ [[true, false], [true, true]],
        Visits encoding result later.store result.arena.initial 1 (s ++ [false]) ∧
          ¬ detour.isGoal s = .ok true ∧
          result.region later.store (s ++ [false]) = .losing ∧
          result.strategy? later.store (s ++ [false]) = none) ∧
      detour.HelpedWithin 2 [true, false] ∧
      detour.Applicable "g" [true, true] ∧ detour.Grounded "g" "t" ∧
      detour.Wins (detour.result "g" "t" [true, true]) := by
  obtain ⟨manager, compiled, later, encoding, result, hcreate, hs, hsize, hcompiled, hcompile,
    hsolve⟩ := detour_runs
  have hparts : Domain.ofParts detourParts = .ok detour := rfl
  obtain ⟨-, name, happ, hround⟩ := first_round (Domain.wellFormed_of_ofParts hparts)
    detour_consistent hs hsize hcompile hcompiled le_rfl hsolve detour_not_wins_initial
    (detour_noFarther_iff.2 detour_helpedWithin_one) detour_initial_not_goal
  obtain rfl := detour_applicable_iff.1 happ
  have hlosing : ∀ reaction s, reaction ∈ ["r", "s", "t", "u"] →
      detour.result "g" reaction detour.initial = s → ¬ detour.isGoal s = .ok true →
      ¬ detour.HelpedWithin 1 s →
        Visits encoding result later.store result.arena.initial 1 (s ++ [false]) ∧
          ¬ detour.isGoal s = .ok true ∧
          result.region later.store (s ++ [false]) = .losing ∧
          result.strategy? later.store (s ++ [false]) = none := by
    rintro reaction s hreaction rfl hgoal hfar
    obtain ⟨hvisits, hregion⟩ := hround reaction (detour_grounded_iff.2 hreaction)
    have hregion := hregion (mt detour_noFarther_iff.1 hfar)
    exact ⟨hvisits, hgoal, hregion, BestEffort.strategy?_eq_none_iff.2 hregion⟩
  refine ⟨manager, compiled, later, encoding, result, hcreate, hparts, detour_consistent, hcompile,
    hsolve, ?_, detour_helpedWithin_two, detour_applicable_iff.2 rfl, detour_grounded_iff.2 (by simp),
    detour_wins_result (.inr ⟨rfl, rfl⟩)⟩
  intro s hmem
  simp only [List.mem_cons, List.not_mem_nil, or_false] at hmem
  rcases hmem with rfl | rfl
  · exact hlosing "s" _ (by simp) (by cbv) (by cbv; simp) detour_far_away
  · exact hlosing "u" _ (by simp) (by cbv) (by cbv; simp) detour_far_clash

end Detour

/-- If the initial state is called cooperative then lawful rounds lead from it to one of the winning
states of the game against every environment. Every play from there goes on with applicable actions
and any of their reactions until it reaches the goal, within the iterations of that game. -/
theorem reaches_goal_of_cooperative {parts : DomainParts}
    (hparts : Domain.ofParts parts = .ok domain) (hconsistent : Consistent domain)
    (hs : manager.store.Replayable) (hsize : manager.registry.size < UInt32.size)
    {compiled current later : Manager}
    (hcompile : (ofDomain domain mode).run.run manager = (.ok encoding, compiled))
    (hcurrent : current.store.Replayable) (hle : compiled ≤ current) {maxIterations : Option Nat}
    (hsolve : (encoding.solveBestEffort maxIterations).run.run current = (.ok result, later))
    (hregion : result.region later.store result.arena.initial = .cooperative) :
    ∃ t, Relation.ReflTransGen (LawfulRound encoding result later.store) result.arena.initial t ∧
      result.arena.satisfies later.store result.adversarial.winningStates t = true ∧
      ∀ n u, Visits encoding result later.store t n u → ¬ domain.isGoal u = .ok true →
        n < result.adversarial.iterations ∧
          ∃ name, Decides encoding result later.store u name ∧ domain.Applicable name u ∧
            (∃ reaction, domain.Grounded name reaction) ∧
            ∀ reaction, domain.Grounded name reaction →
              ∃ v, Round encoding result later.store u name reaction v := by
  have hdomain := Domain.wellFormed_of_ofParts hparts
  obtain ⟨encoding', result', origin, last, hpaired, hencoding, hcopies, hfaithful, hresult,
    hinitial⟩ := exists_settling_copy hdomain hconsistent hs hsize hcompile hcurrent hle hsolve
  obtain rfl := hfaithful.domain_eq
  obtain rfl := hfaithful.mode_eq
  rw [← hcopies.region_eq hpaired, ← hcopies.arena.initial_eq] at hregion
  have hreaches := hresult.reaches_goal hfaithful hdomain hinitial hregion
  simp only [hcopies.arena.satisfies_eq hpaired hcopies.adversarial.winningStates] at hreaches
  rwa [lawfulRound_eq hcopies hencoding hpaired, visits_eq hcopies hencoding hpaired,
    decides_eq hcopies hencoding hpaired, round_eq hcopies hencoding hpaired,
    hcopies.arena.initial_eq, hcopies.adversarial.iterations_eq] at hreaches

/-- The detour is called cooperative, and so lawful rounds lead to one of its winning states. -/
theorem detour_reaches_goal :
    ∃ (manager compiled later : Manager) (encoding : Encoding) (result : BestEffort)
      (t : List Bool), Manager.create ⟨1, 1⟩ {} = .ok manager ∧
      Domain.ofParts detourParts = .ok detour ∧ Consistent detour ∧ manager.store.Replayable ∧
      manager.registry.size < UInt32.size ∧
      (ofDomain detour .invariant).run.run manager = (.ok encoding, compiled) ∧
      compiled.store.Replayable ∧
      (encoding.solveBestEffort none).run.run compiled = (.ok result, later) ∧
      result.region later.store result.arena.initial = .cooperative ∧
      Relation.ReflTransGen (LawfulRound encoding result later.store) result.arena.initial t ∧
      result.arena.satisfies later.store result.adversarial.winningStates t = true ∧
      ∀ n u, Visits encoding result later.store t n u → ¬ detour.isGoal u = .ok true →
        n < result.adversarial.iterations := by
  obtain ⟨manager, compiled, later, encoding, result, hcreate, hs, hsize, hcompiled, hcompile,
    hsolve⟩ := detour_runs
  have hparts : Domain.ofParts detourParts = .ok detour := rfl
  obtain ⟨hcooperative, -⟩ := first_round (Domain.wellFormed_of_ofParts hparts) detour_consistent hs
    hsize hcompile hcompiled le_rfl hsolve detour_not_wins_initial
    (detour_noFarther_iff.2 detour_helpedWithin_one) detour_initial_not_goal
  obtain ⟨t, hrounds, hwinning, hreaches⟩ := reaches_goal_of_cooperative hparts detour_consistent hs
    hsize hcompile hcompiled le_rfl hsolve hcooperative
  exact ⟨manager, compiled, later, encoding, result, t, hcreate, hparts, detour_consistent, hs,
    hsize, hcompile, hcompiled, hsolve, hcooperative, hrounds, hwinning,
    fun n u hvisits hgoal => (hreaches n u hvisits hgoal).1⟩

end Encoding

end PlanningGame
