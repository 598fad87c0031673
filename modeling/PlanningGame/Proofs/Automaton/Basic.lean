import Mathlib
import PlanningGame.Proofs.Manager
import PlanningGame.Proofs.Failing
import PlanningGame.Proofs.Game.Arena

/-!
# Automata over a block

An automaton is created over a block that is registered. It has one initial and one next value for
each variable of the block.
-/
namespace PlanningGame.Automaton

open Manager

variable {registry : Registry} {manager : Manager} {id : BlockId} {vars : List Var}
  {labels : List (String × Nat)} {sound : Store → Prop}

theorem yields_create (hm : StandsIn sound registry manager)
    (hblock : registry.block? id = some ⟨vars, labels⟩) (initial : List Bool) (next : List Edge)
    (finals : Edge) :
    YieldsIn sound registry (create id initial next finals) manager fun automaton _ =>
      automaton = { block := id, stateVars := vars, initial, next, finals } ∧
        initial.length = vars.length ∧ next.length = vars.length := by
  unfold create
  refine yields_block_bind hm hblock ?_
  dsimp only
  split
  · next hlength => exact yields_pure hm ⟨rfl, hlength⟩
  · exact yields_throw _

theorem completes_create (hm : StandsIn sound registry manager)
    (hblock : registry.block? id = some ⟨vars, labels⟩) {initial : List Bool} {next : List Edge}
    (hinitial : initial.length = vars.length) (hnext : next.length = vars.length) (finals : Edge) :
    Completes (create id initial next finals) manager := by
  unfold create
  refine failsOnly_block_bind hm hblock ?_
  dsimp only
  rw [if_pos ⟨hinitial, hnext⟩]
  exact failsOnly_pure _

section Runs

variable {automaton : Automaton} {store later : Store}

/-- An automaton whose diagrams are in a store runs there as it does in any later store. -/
theorem step_mono (hr : store.Founded) (hle : store ≤ later)
    (hnext : ∀ e ∈ automaton.next, store.Has e) (state : List Bool) (letters : Valuation) :
    automaton.step later state letters = automaton.step store state letters := by
  unfold step
  split
  · refine congrArg Except.ok (List.map_congr_left fun e he => ?_)
    exact hr.eval_mono hle (hnext e he) _
  · rfl

theorem run_cons {s next : List Bool} {letters : Valuation} {word : List Valuation}
    {states : List (List Bool)} (hstep : automaton.step store s letters = .ok next)
    (hrun : automaton.run store next word = .ok states) :
    automaton.run store s (letters :: word) = .ok (next :: states) := by
  simp [run, hstep, hrun, bind, Except.bind, pure, Except.pure]

end Runs

end PlanningGame.Automaton
