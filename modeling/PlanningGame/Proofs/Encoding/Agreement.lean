import Mathlib
import PlanningGame.Proofs.Game.Shortest
import PlanningGame.Proofs.Encoding.BestEffort
import PlanningGame.Proofs.Encoding.Cleared

/-!
# Best effort and help alone

A best effort looks for help on the way to a state that is won, and the game with help alone looks
for the goal. The first asks for less in each single step: in a state that is won it stops. But a
state that is won has a play to the goal, in which the agent follows the strategy and the
environment gives any reaction that the actions have. So a best effort loses the initial state
exactly if no play leads from there to the goal.
-/
namespace PlanningGame.Encoding

open Manager

variable {registry : Registry} {origin store : Store} {manager : Manager} {domain : Domain}
  {mode : AgentErrorMode} {encoding : Encoding} {result : BestEffort} {solution : Solution}

/-- With the help of the environment alone a domain is realizable exactly if some play leads from
its initial state to the goal. -/
theorem Faithful.yields_solveCooperative (hm : Stands registry manager)
    (h : Faithful registry manager.store domain mode encoding) (hdomain : domain.WellFormed)
    (maxIterations : Option Nat) :
    Manager.Yields registry (encoding.solveCooperative maxIterations) manager fun solution _ =>
      solution.realizable = true ↔ domain.Reaches domain.initial := by
  unfold solveCooperative
  dsimp only
  apply (yields_lift hm (h.ensures_stateSpace hdomain hm.sound).yields).bind
  intro space m₁ hm₁ hle₁ hspace
  have h₁ := h.mono hm.sound.toReduced hle₁.1 le_rfl
  have hfinals : m₁.store.Denotes encoding.automaton.finals fun a =>
      encoding.automaton.stateOf a ∈ {t : List Bool | domain.isGoal t = .ok true} := h₁.finals
  apply (h₁.delivers_cooperativeGoal hm₁ hdomain (fun _ => False.elim) hfinals hspace).yields.bind
  intro goal m₂ hm₂ hle₂ hgoal
  have h₂ := h₁.mono hm₁.sound.toReduced hle₂.1 le_rfl
  have hspace := hspace.mono hm₁.sound.toReduced hle₂.1
  have hclosed : (agentGame encoding.automaton maxIterations).Closed m₂.store goal space :=
    h₂.game_closed hm₂.sound.toReduced hspace hgoal
  refine (yields_lift hm₂ (Game.yields_search hm₂.sound hclosed.readable)).weaken
    fun solution later _ _ hanswer => ?_
  rw [hanswer.realizable_iff_exists_helped hclosed rfl]
  refine exists_congr fun k => ?_
  change encoding.automaton.initial ∈ _ ↔ _
  rw [h₂.initial_eq, initialState_eq]
  exact h₂.mem_helped_iff_reachesWithin hdomain hspace hgoal
    (fun s hs => hdomain.isGoal_append_iff hs) hdomain.initial_length

section Initial

variable (hresult : Settles encoding store result)
  (h : Faithful registry origin encoding.domain encoding.mode encoding)
  (hdomain : encoding.domain.WellFormed)
include hresult hdomain

/-- The first game of a best effort is realizable exactly if the agent wins. -/
theorem Settles.realizable_iff :
    result.adversarial.realizable = true ↔ encoding.domain.Wins encoding.domain.initial := by
  constructor
  · exact fun hreal => (hresult.forces.realizable.1 hreal).wins
  · intro hwins
    by_contra hfalse
    have hfalse : result.adversarial.realizable = false := by simpa using hfalse
    have hwithin := hresult.forces.complete hfalse _ hdomain.initial_length hwins
    exact absurd (hresult.forces.realizable.2 hwithin) (by simp [hfalse])

include h

/-- The initial state is won exactly if the first game is realizable. -/
theorem Settles.region_initial_eq_winning_iff :
    result.region store result.arena.initial = .winning ↔
      result.adversarial.realizable = true := by
  rw [hresult.arena, h.initial_eq, initialState_eq,
    hresult.region_eq_winning_iff h hdomain hdomain.initial_length, hresult.forces.realizable]

/-- The initial state is not lost exactly if some play leads from it to the goal. -/
theorem Settles.region_initial_ne_losing_iff :
    result.region store result.arena.initial ≠ .losing ↔
      encoding.domain.Reaches encoding.domain.initial := by
  have hwinning := hresult.region_initial_eq_winning_iff h hdomain
  rw [← Domain.noFarther_initial_iff]
  cases hreal : result.adversarial.realizable with
  | true =>
    rw [hwinning.2 hreal]
    exact iff_of_true (by simp) ((hresult.realizable_iff hdomain).1 hreal).noFarther
  | false =>
    have hnot := mt (hresult.realizable_iff hdomain).2 (by simp [hreal])
    have hwithin := mt hresult.forces.realizable.2 (by simp [hreal])
    obtain ⟨solution, hsolution, hassists⟩ := hresult.assists hreal
    have hcooperative := hresult.region_eq_cooperative_iff h hdomain hdomain.initial_length
      hsolution hassists
    rw [← initialState_eq, ← h.initial_eq, ← hresult.arena, and_iff_right hwithin] at hcooperative
    rw [← hassists.nearest hnot _ hdomain.initial_length, ← hcooperative]
    cases hregion : result.region store result.arena.initial with
    | winning => exact absurd (hwinning.1 hregion) (by simp [hreal])
    | cooperative => simp
    | losing => simp

end Initial

section Compiled

variable {parts : DomainParts} {compiled current later current' later' : Manager}
  (hparts : Domain.ofParts parts = .ok domain) (hconsistent : Consistent domain)
  (hcompile : (ofDomain domain mode).run.run manager = (.ok encoding, compiled))
  (hsize : manager.registry.size < UInt32.size)
  (hle : compiled ≤ current) (hle' : compiled ≤ current') {maxIterations maxIterations' : Option Nat}
  (hsolve : (encoding.solveBestEffort maxIterations).run.run current = (.ok result, later))
  (hhelp : (encoding.solveCooperative maxIterations').run.run current' = (.ok solution, later'))
include hparts hconsistent hcompile hsize hle hle' hsolve hhelp

/-- Compiled in any manager, and solved in it by either procedure at any later time, a best effort
does not lose the initial state of a domain exactly if the domain is realizable with the help of the
environment. -/
theorem region_ne_losing_iff_realizable (hs : manager.store.Replayable)
    (hcurrent : current.store.Replayable) (hcurrent' : current'.store.Replayable) :
    result.region later.store result.arena.initial ≠ .losing ↔ solution.realizable = true := by
  have hdomain := Domain.wellFormed_of_ofParts hparts
  obtain ⟨aided, ordered, hm, hpaired, hfaithful, haided⟩ :=
    exists_faithful_copy hs hsize hconsistent hcompile hcurrent' hle'
  obtain ⟨solution', last', hhelp', -, -, hsolution⟩ :=
    (paced_solveCooperative hpaired haided maxIterations').exists_answer hhelp
  obtain ⟨-, -, hrealizable⟩ :=
    hfaithful.yields_solveCooperative hm hdomain maxIterations' solution' last' hhelp'
  obtain ⟨encoding', result', origin, last, hlast, -, hresult, hfaithful', hsettles, -⟩ :=
    exists_settling_copy hdomain hconsistent hs hsize hcompile hcurrent hle hsolve
  obtain rfl := hfaithful'.domain_eq
  obtain rfl := hfaithful'.mode_eq
  rw [← hsolution.realizable_eq, hrealizable, ← hresult.region_eq hlast, ← hresult.arena.initial_eq]
  exact hsettles.region_initial_ne_losing_iff hfaithful' hdomain

end Compiled

/-- In a new manager the switch is compiled and solved by both procedures, and its initial state is
not lost. -/
theorem switch_region_ne_losing :
    ∃ (manager compiled later later' : Manager) (encoding : Encoding) (result : BestEffort)
      (solution : Solution),
      Manager.create ⟨1, 1⟩ {} = .ok manager ∧ Domain.ofParts switchParts = .ok switch ∧
      Consistent switch ∧ manager.store.Replayable ∧ manager.registry.size < UInt32.size ∧
      (ofDomain switch .invariant).run.run manager = (.ok encoding, compiled) ∧
      compiled.store.Replayable ∧
      (encoding.solveBestEffort none).run.run compiled = (.ok result, later) ∧
      (encoding.solveCooperative none).run.run compiled = (.ok solution, later') ∧
      solution.realizable = true ∧ result.region later.store result.arena.initial ≠ .losing := by
  let manager : Manager := { store := .blank }
  have hs : manager.store.Replayable := Store.replayable_blank
  have hsize : manager.registry.size < UInt32.size := by decide
  have hparts : Domain.ofParts switchParts = .ok switch := rfl
  have hok : answersWith (ofDomain switch .invariant) manager (fun encoding compiled =>
      answersWith (encoding.solveBestEffort none) compiled fun _ _ =>
        answersWith (encoding.solveCooperative none) compiled fun solution _ =>
          solution.realizable) = true := by
    set_option maxRecDepth 1500 in cbv
  obtain ⟨encoding, compiled, hcompile, hok⟩ := exists_run_of_answersWith hok
  obtain ⟨result, later, hsolve, hok⟩ := exists_run_of_answersWith hok
  obtain ⟨solution, later', hhelp, hrealizable⟩ := exists_run_of_answersWith hok
  have hcompiled := replayable_of_compiled hs hcompile
  have hregion := region_ne_losing_iff_realizable hparts switch_consistent hcompile hsize le_rfl
    le_rfl hsolve hhelp hs hcompiled hcompiled
  exact ⟨manager, compiled, later, later', encoding, result, solution, rfl, hparts,
    switch_consistent, hs, hsize, hcompile, hcompiled, hsolve, hhelp, hrealizable,
    hregion.2 hrealizable⟩

end PlanningGame.Encoding
