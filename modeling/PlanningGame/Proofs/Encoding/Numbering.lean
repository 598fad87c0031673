import Mathlib
import PlanningGame.Proofs.Encoding.Codes

/-!
# Variables of an encoding

An encoding is built only if none of its variables has the number zero. Each state bit is read for
its next value, and each output and input occurs in the codes of all names.
-/
namespace PlanningGame.Encoding

open Manager

variable {registry : Registry} {id : BlockId} {block : Block}

theorem needs_selection (actions : List Action) (agentNames reactionNames : List String)
    (outputs inputs : List Var) :
    Diagram.Needs (selection actions agentNames reactionNames outputs inputs)
      ((agentNames ≠ [] → ∀ v ∈ outputs, v ≠ 0) ∧ (reactionNames ≠ [] → ∀ v ∈ inputs, v ≠ 0)) := by
  unfold selection
  apply (CodeTable.needs_create agentNames outputs).bind
  intro agents houtputs
  apply (CodeTable.needs_create reactionNames inputs).bind
  intro reactions hinputs
  exact fun _ _ _ _ _ => ⟨trivial, houtputs, hinputs⟩

theorem needs_nextFluent (hblock : registry.block? id = some block)
    (pairs : List (Action × PairPredicates)) (fluent : Nat) :
    Manager.Needs registry (nextFluent id pairs fluent)
      (∃ v, block.vars[fluent]? = some v ∧ v ≠ 0) := by
  unfold nextFluent
  apply (needs_lift_true _).bind
  intro added _
  apply (needs_lift_true _).bind
  intro deleted _
  apply (needs_stateBit hblock fluent).bind
  intro bit hbit
  apply (needs_lift_true _).bind
  intro kept _
  exact (needs_lift_true _).weaken fun _ => hbit

theorem needs_stateLiteral (hblock : registry.block? id = some block) (value : Bool)
    (place : Nat) : Manager.Needs registry (stateLiteral id value place) True := by
  unfold stateLiteral
  apply needs_block_bind hblock
  cases block.vars[place]? with
  | none => exact needs_throw _
  | some v => exact needs_pure _ trivial

theorem needs_fluentCube (hblock : registry.block? id = some block) (holding failing : FluentSet) :
    Manager.Needs registry (fluentCube id holding failing) True := by
  unfold fluentCube
  apply (needs_mapM fun place _ => needs_stateLiteral hblock true place).bind
  intro positive _
  apply (needs_mapM fun place _ => needs_stateLiteral hblock false place).bind
  intro negative _
  exact needs_lift_true _

theorem needs_applicable (hblock : registry.block? id = some block) (agents : CodeTable)
    (seen : List String) (edge : Edge) (actions : List Action) :
    Manager.Needs registry (applicable id agents seen edge actions) True := by
  induction actions generalizing seen edge with
  | nil => exact needs_pure _ trivial
  | cons action rest ih =>
    rw [applicable]
    split
    · exact ih seen edge
    · apply (needs_fluentCube hblock _ _).bind
      intro conditions _
      apply (needs_lift_true _).bind
      intro permitted _
      apply (needs_lift_true _).bind
      intro both _
      exact ih _ both

theorem needs_nextEnvError (hblock : registry.block? id = some block) (place : Nat)
    (envMutex envPrecondition : Edge) :
    Manager.Needs registry (nextEnvError id place envMutex envPrecondition)
      (∃ v, block.vars[place]? = some v ∧ v ≠ 0) := by
  unfold nextEnvError
  apply (needs_stateBit hblock place).bind
  intro bit hbit
  apply (needs_lift_true _).bind
  intro violation _
  exact (needs_lift_true _).weaken fun _ => hbit

theorem needs_nextAgentError (hblock : registry.block? id = some block) (place : Nat)
    (agentOk : Edge) (mode : AgentErrorMode) :
    Manager.Needs registry (nextAgentError id place agentOk mode)
      (mode = .errorBit → ∃ v, block.vars[place]? = some v ∧ v ≠ 0) := by
  cases mode with
  | invariant => exact needs_pure _ (by simp)
  | errorBit =>
    unfold nextAgentError
    apply (needs_stateBit hblock place).bind
    intro bit hbit
    apply (needs_lift_true _).bind
    intro e _
    exact needs_pure _ fun _ => hbit

/-- The variables of an encoding are not zero. -/
structure Numbered (domain : Domain) (mode : AgentErrorMode) (vars outputs inputs : List Var) :
    Prop where
  fluents : ∀ i ∈ List.range domain.fluents.length, ∃ v, vars[i]? = some v ∧ v ≠ 0
  envError : ∃ v, vars[domain.fluents.length]? = some v ∧ v ≠ 0
  agentError : mode = .errorBit → ∃ v, vars[domain.fluents.length + 1]? = some v ∧ v ≠ 0
  outputs : agentNamesOf domain ≠ [] → ∀ v ∈ outputs, v ≠ 0
  inputs : reactionNamesOf domain ≠ [] → ∀ v ∈ inputs, v ≠ 0

theorem numbered_of_run (hblock : registry.block? id = some block) {domain : Domain}
    {mode : AgentErrorMode} {outputs inputs : List Var} {manager later : Manager}
    {encoding : Encoding} (hm : manager.registry = registry)
    (hrun : (encode domain mode id outputs inputs).run.run manager = (.ok encoding, later)) :
    Numbered domain mode block.vars outputs inputs := by
  unfold encode at hrun
  obtain ⟨selection, m₁, ⟨⟨houtputs, hinputs⟩, hm₁⟩, hrun⟩ :=
    (needs_lift (needs_selection _ _ _ _ _)).of_run_bind hm hrun
  obtain ⟨fluents, m₂, ⟨hfluents, hm₂⟩, hrun⟩ :=
    (needs_mapM fun i _ => needs_nextFluent hblock _ i).of_run_bind hm₁ hrun
  obtain ⟨envPrecondition, m₃, ⟨-, hm₃⟩, hrun⟩ := (needs_lift_true _).of_run_bind hm₂ hrun
  obtain ⟨agentPrecondition, m₄, ⟨-, hm₄⟩, hrun⟩ :=
    (needs_applicable hblock _ _ _ _).of_run_bind hm₃ hrun
  obtain ⟨envError, m₅, ⟨henvError, hm₅⟩, hrun⟩ :=
    (needs_nextEnvError hblock _ _ _).of_run_bind hm₄ hrun
  obtain ⟨agentOk, m₆, ⟨-, hm₆⟩, hrun⟩ := (needs_lift_true _).of_run_bind hm₅ hrun
  obtain ⟨agentError, m₇, ⟨hagentError, -⟩, -⟩ :=
    (needs_nextAgentError hblock _ _ mode).of_run_bind hm₆ hrun
  exact ⟨hfluents, henvError, hagentError, houtputs, hinputs⟩

variable {domain : Domain} {mode : AgentErrorMode} {vars outputs inputs : List Var}

theorem Numbered.vars_ne_zero (h : Numbered domain mode vars outputs inputs)
    (hlength : vars.length = (stateNames domain mode).length) : ∀ v ∈ vars, v ≠ 0 := by
  intro v hv
  obtain ⟨i, hi⟩ := List.mem_iff_getElem?.1 hv
  have hlt : i < vars.length := (List.getElem?_eq_some_iff.1 hi).1
  obtain ⟨w, hw, hzero⟩ : ∃ w, vars[i]? = some w ∧ w ≠ 0 := by
    by_cases hfluent : i < domain.fluents.length
    · exact h.fluents i (List.mem_range.2 hfluent)
    by_cases hplace : i = domain.fluents.length
    · exact hplace ▸ h.envError
    cases mode with
    | invariant =>
      simp only [stateNames, List.length_append, List.length_singleton, List.length_nil] at hlength
      omega
    | errorBit =>
      simp only [stateNames, List.length_append, List.length_singleton] at hlength
      have hlast : i = domain.fluents.length + 1 := by omega
      exact hlast ▸ h.agentError rfl
  rwa [Option.some.inj (hi.symm.trans hw)]

/-- Without names there are no variables for their codes. -/
theorem ne_zero_of_names {names : List String} (h : names ≠ [] → ∀ v ∈ vars, v ≠ 0)
    (hlength : vars.length = CodeTable.bits names) : ∀ v ∈ vars, v ≠ 0 := by
  cases names with
  | nil =>
    have hbits : CodeTable.bits [] = 0 := rfl
    rw [List.length_eq_zero_iff.1 (hlength.trans hbits)]
    simp
  | cons name rest => exact h (List.cons_ne_nil name rest)

end PlanningGame.Encoding
