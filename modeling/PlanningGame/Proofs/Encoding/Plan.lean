import Mathlib
import PlanningGame.Proofs.Domain.Plan
import PlanningGame.Proofs.Game.Termination
import PlanningGame.Proofs.Encoding.Refinement

/-!
# Strong plans are found

The initial state of a domain that is won in a number of steps is in the layer of the game with that
number, so the search ends in time with the initial state among those found. A strong plan wins in
this way if it has an applicable action where its plays end: the goal of the game is a safe move,
and in a state without applicable actions there is none.
-/
namespace PlanningGame.Encoding

open Manager

variable {registry : Registry} {manager : Manager} {domain : Domain}
  {mode : AgentErrorMode} {encoding : Encoding} {policy : List Bool → String} {k : Nat}
  {maxIterations : Option Nat}

/-- While there is room the game is answered, and the answer is that it is realizable. -/
theorem Faithful.delivers_of_winsWithin (hm : Stands registry manager)
    (h : Faithful registry manager.store domain mode encoding) (hdomain : domain.WellFormed)
    (hwins : domain.WinsWithin k domain.initial)
    (hbound : ∀ m, maxIterations = some m → max 1 k ≤ m) :
    Manager.Delivers Diagram.HasRoom registry (encoding.solveAdversarial maxIterations) manager
      fun solution _ => solution.realizable = true := by
  refine h.delivers_solveAdversarial hm hdomain (fun _ => id)
    fun later space goal hlater h₂ hspace hgoal => ?_
  have hclosed : (agentGame encoding.automaton maxIterations).Closed later.store goal space :=
    h₂.game_closed hlater.sound.toReduced hspace hgoal
  have hstops : ∀ m, maxIterations = some m → ∃ i < m,
      Game.Stops (agentGame encoding.automaton maxIterations) later.store goal space i := by
    intro m hm
    have := hbound m hm
    -- the search looks for the initial state from the second layer on
    refine ⟨k - 1, by omega, .inl (Game.layer_mono (by omega : k ≤ k - 1 + 1) ?_)⟩
    change encoding.automaton.initial ∈ _
    rw [h.initial_eq, initialState_eq]
    exact h₂.mem_layer_of_winsWithin hdomain hspace hgoal hwins hdomain.initial_length
  refine (delivers_lift hlater (Game.delivers_solve_of_stops hlater.sound hclosed
    (h₂.outputs_ne_zero maxIterations) hstops)).weaken fun solution last _ _ hsolved => ?_
  exact (h₂.realizable_of_solved hdomain hlater.sound hspace hgoal hsolved).2 hwins.wins

/-- Compiled over any manager that has not run out of numbers for variables, and solved in it later
with as many iterations as the plan has steps, a domain with a strong plan is realizable. -/
theorem realizable_of_strongPlan {parts : DomainParts} (hparts : Domain.ofParts parts = .ok domain)
    (hconsistent : Consistent domain) (hinvariants : domain.invariants = [])
    (hs : manager.store.Replayable) (hsize : manager.registry.size < UInt32.size)
    {compiled current : Manager}
    (hcompile : (ofDomain domain mode).run.run manager = (.ok encoding, compiled))
    (hcurrent : current.store.Replayable) (hle : compiled ≤ current)
    (hplan : domain.StrongPlan policy k) (halive : domain.EndsAlive policy)
    (hbound : ∀ m, maxIterations = some m → max 1 k ≤ m)
    (hroom : Diagram.HasRoom ((encoding.solveAdversarial maxIterations).run.run current).2.store) :
    ∃ solution later, (encoding.solveAdversarial maxIterations).run.run current =
      (.ok solution, later) ∧ solution.realizable = true := by
  obtain ⟨encoding', ordered, hm, hpaired, hfaithful, hcopies⟩ :=
    exists_faithful_copy hs hsize hconsistent hcompile hcurrent hle
  have hdelivers := hfaithful.delivers_of_winsWithin hm (Domain.wellFormed_of_ofParts hparts)
    (hplan.winsWithin halive hinvariants) hbound
  -- where there is room in the given manager, there is room for the copies, too
  obtain ⟨solution, solution', later, later', hsolve, -, hsolution, hrealizable⟩ :=
    (paced_solveAdversarial hpaired hcopies maxIterations).exists_run hdelivers
      (fun _ _ h => h.store.covers.room) hroom
  exact ⟨solution, later, hsolve, hsolution.realizable_eq ▸ hrealizable⟩

/-- Switching is a plan: the agent only has to do it once. -/
theorem switch_strongPlan : switch.StrongPlan (fun _ => "g") 1 := by
  refine Domain.strongPlan_one ?_ fun reaction ⟨action, hmem, hagent, hreaction⟩ => ?_
  · refine ⟨switchParts.actions[0], rfl, fun i hi => ?_, fun i hi => ?_⟩
    · exact absurd hi Std.TreeSet.not_mem_emptyc
    · obtain rfl : 0 = i := by simpa [switchParts] using hi
      rfl
  · have hmem := Domain.mem_of_mem_actionsByName hmem
    simp only [switchParts, List.mem_cons, List.not_mem_nil, or_false] at hmem
    rcases hmem with rfl | rfl | rfl
    · exact hreaction ▸ by cbv
    · exact hreaction ▸ by cbv
    · exact absurd hagent (by decide)

/-- The other action can be done in every state. -/
theorem switch_endsAlive (policy : List Bool → String) : switch.EndsAlive policy := by
  refine fun n s _ _ => ⟨"h", switchParts.actions[2], rfl, fun i hi => ?_, fun i hi => ?_⟩
  · exact absurd hi Std.TreeSet.not_mem_emptyc
  · exact absurd hi Std.TreeSet.not_mem_emptyc

/-- A new manager has room for the domain of the switch, and the plan is found. -/
theorem switch_realizable_of_strongPlan :
    ∃ (manager compiled later : Manager) (encoding : Encoding) (solution : Solution),
      Manager.create ⟨1, 1⟩ {} = .ok manager ∧ Domain.ofParts switchParts = .ok switch ∧
      manager.store.Replayable ∧
      (ofDomain switch .invariant).run.run manager = (.ok encoding, compiled) ∧
      compiled.store.Replayable ∧
      switch.StrongPlan (fun _ => "g") 1 ∧ switch.EndsAlive (fun _ => "g") ∧
      (encoding.solveAdversarial (some 1)).run.run compiled = (.ok solution, later) ∧
      solution.realizable = true := by
  let manager : Manager := { store := .blank }
  have hs : manager.store.Replayable := Store.replayable_blank
  have hsize : manager.registry.size < UInt32.size := by decide
  have hok : answersWith (ofDomain switch .invariant) manager (fun encoding compiled =>
      ((encoding.solveAdversarial (some 1)).run.run compiled).2.store.nodeCount.ble 100) =
        true := by
    set_option maxRecDepth 1500 in cbv
  obtain ⟨encoding, compiled, hcompile, hcount⟩ := exists_run_of_answersWith hok
  have hroom : Diagram.HasRoom
      ((encoding.solveAdversarial (some 1)).run.run compiled).2.store :=
    (Nat.le_of_ble_eq_true hcount).trans_lt (by decide)
  have hcompiled := replayable_of_compiled hs hcompile
  have hparts : Domain.ofParts switchParts = .ok switch := rfl
  obtain ⟨solution, later, hsolve, hrealizable⟩ := realizable_of_strongPlan hparts
    switch_consistent rfl hs hsize hcompile hcompiled le_rfl switch_strongPlan
    (switch_endsAlive _) (fun m hm => Option.some.inj hm ▸ le_rfl) hroom
  exact ⟨manager, compiled, later, encoding, solution, rfl, hparts, hs, hcompile, hcompiled,
    switch_strongPlan, switch_endsAlive _, hsolve, hrealizable⟩

/-- One action turns the lamp on. Nothing can be done when it is on. -/
def lampParts : DomainParts where
  fluents := ["p"]
  initial := [false]
  actions :=
    [{ name := "a", agent := "g", reaction := "r", forbidden := .ofList [0], adds := .ofList [0] }]
  goal := .ofList [0]

/-- The domain of these parts. -/
def lamp : Domain where
  fluents := lampParts.fluents
  initial := lampParts.initial
  actions := Domain.actionsByName lampParts.actions
  goal := lampParts.goal
  goalForbidden := ∅
  invariants := []

theorem lamp_consistent : Consistent lamp := by
  constructor
  · exact fun i _ => Std.TreeSet.not_mem_emptyc
  · intro action hmem i hi
    have hmem := Domain.mem_of_mem_actionsByName hmem
    simp only [lampParts, List.mem_cons, List.not_mem_nil, or_false] at hmem
    exact absurd (hmem ▸ hi) Std.TreeSet.not_mem_emptyc

theorem lamp_strongPlan : lamp.StrongPlan (fun _ => "g") 1 := by
  refine Domain.strongPlan_one ?_ fun reaction ⟨action, hmem, hagent, hreaction⟩ => ?_
  · refine ⟨lampParts.actions[0], rfl, fun i hi => ?_, fun i hi => ?_⟩
    · exact absurd hi Std.TreeSet.not_mem_emptyc
    · obtain rfl : 0 = i := by simpa [lampParts] using hi
      rfl
  · have hmem := Domain.mem_of_mem_actionsByName hmem
    simp only [lampParts, List.mem_cons, List.not_mem_nil, or_false] at hmem
    subst hmem
    exact hreaction ▸ by cbv

/-- In a new manager the plan for the lamp is not found, as its plays end in a state in which no
action is applicable. -/
theorem lamp_unrealizable :
    ∃ (manager compiled later : Manager) (encoding : Encoding) (solution : Solution),
      Manager.create ⟨1, 1⟩ {} = .ok manager ∧ Domain.ofParts lampParts = .ok lamp ∧
      Consistent lamp ∧ lamp.invariants = [] ∧ lamp.StrongPlan (fun _ => "g") 1 ∧
      (ofDomain lamp .invariant).run.run manager = (.ok encoding, compiled) ∧
      (encoding.solveAdversarial none).run.run compiled = (.ok solution, later) ∧
      solution.realizable = false := by
  let manager : Manager :=
    { store := ⟨⟨#[.terminal], #[[], []]⟩, { slots := #[none, none] }, {}⟩ }
  have hok : (match (ofDomain lamp .invariant).run.run manager with
    | (.ok encoding, compiled) =>
      match (encoding.solveAdversarial none).run.run compiled with
      | (.ok solution, _) => !solution.realizable
      | (.error _, _) => false
    | (.error _, _) => false) = true := by cbv
  split at hok
  · next encoding compiled hcompile =>
    split at hok
    · next solution later hsolve =>
      exact ⟨manager, compiled, later, encoding, solution, rfl, rfl, lamp_consistent, rfl,
        lamp_strongPlan, hcompile, hsolve, by simpa using hok⟩
    · exact absurd hok (by simp)
  · exact absurd hok (by simp)

end PlanningGame.Encoding
