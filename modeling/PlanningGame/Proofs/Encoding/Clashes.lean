import Mathlib
import PlanningGame.Proofs.Domain.Winning
import PlanningGame.Proofs.Encoding.Calls
import PlanningGame.Proofs.Encoding.Completion
import PlanningGame.Proofs.Encoding.Plan
import PlanningGame.Proofs.Reached

/-!
# Names that clash

A domain needs a name for each of its state bits, and these names must differ. The names of its
codes are shared with all others who use the manager. If one of the names is taken then the domain
is refused, whatever was registered by then stays, and nothing that was there before is lost. This
is the only way to fail as long as there are positions in the store and numbers for variables.
-/
namespace PlanningGame

/-- What was registered in the earlier manager still is, and diagrams mean what they meant there. -/
structure Manager.Retains (later earlier : Manager) : Prop where
  roles : ∀ v role, earlier.registry.role? v = some role → later.registry.role? v = some role
  names : ∀ v name, earlier.registry.name? v = some name → later.registry.name? v = some name
  shared : ∀ name found, earlier.registry.shared? name = some found →
    later.registry.shared? name = some found
  blocks : ∀ id block, earlier.registry.block? id = some block →
    later.registry.block? id = some block
  functions : ∀ e, earlier.store.Has e →
    later.store.Has e ∧ ∀ a, later.store.eval e a = earlier.store.eval e a

theorem Manager.retains_of_le {earlier later : Manager} (hs : earlier.store.Founded)
    (h : earlier ≤ later) : later.Retains earlier where
  roles _ _ := Registry.role?_mono h.2
  names _ _ := Registry.name?_mono h.2
  shared _ _ := Registry.shared?_mono h.2
  blocks id block := h.2.2 id.index block
  functions _ he := ⟨he.mono h.1, hs.eval_mono h.1 he⟩

namespace Encoding

open Manager Store.Soundness

variable {registry opened : Registry} {manager : Manager} {id : BlockId} {domain : Domain}
  {mode : AgentErrorMode} {sound : Store → Prop} [Store.Soundness sound]

section Names

/-- The names of the outputs. -/
def outputNames (domain : Domain) : List String :=
  codeNames "a" (CodeTable.bits (agentNamesOf domain))

/-- The names of the inputs. -/
def inputNames (domain : Domain) : List String :=
  codeNames "r" (CodeTable.bits (reactionNamesOf domain))

/-- The number of variables of an encoding. -/
def varCount (domain : Domain) (mode : AgentErrorMode) : Nat :=
  (stateNames domain mode).length +
    (CodeTable.bits (reactionNamesOf domain) + CodeTable.bits (agentNamesOf domain))

/-- No name that the domain needs is taken: no fluent is called like an error bit, and the names of
the codes are new or have the role of the code already. State variables take no name away from
inputs, outputs and letters. -/
structure NamesFree (registry : Registry) (domain : Domain) (mode : AgentErrorMode) : Prop where
  envError : envErrorName ∉ domain.fluents
  agentError : mode = .errorBit → agentErrorName ∉ domain.fluents
  outputs : ∀ name ∈ outputNames domain, ∀ v role,
    registry.shared? name = some (v, role) → role = .output
  inputs : ∀ name ∈ inputNames domain, ∀ v role,
    registry.shared? name = some (v, role) → role = .input

/-- The answer to a domain with a name that is taken. -/
inductive Clash (registry : Registry) (domain : Domain) (mode : AgentErrorMode) : Error → Prop
  | envError (h : envErrorName ∈ domain.fluents) :
    Clash registry domain mode (.duplicateVariable envErrorName)
  | agentError (hmode : mode = .errorBit) (h : agentErrorName ∈ domain.fluents) :
    Clash registry domain mode (.duplicateVariable agentErrorName)
  | output {name : String} {v : Var} {role : Role} (hname : name ∈ outputNames domain)
    (hfound : registry.shared? name = some (v, role)) (hrole : role ≠ .output) :
    Clash registry domain mode (.roleConflict name role .output)
  | input {name : String} {v : Var} {role : Role} (hname : name ∈ inputNames domain)
    (hfound : registry.shared? name = some (v, role)) (hrole : role ≠ .input) :
    Clash registry domain mode (.roleConflict name role .input)

theorem NamesFree.not_clash (h : NamesFree registry domain mode) (error : Error) :
    ¬ Clash registry domain mode error := by
  rintro (hmem | ⟨hmode, hmem⟩ | ⟨hname, hfound, hrole⟩ | ⟨hname, hfound, hrole⟩)
  · exact h.envError hmem
  · exact h.agentError hmode hmem
  · exact hrole (h.outputs _ hname _ _ hfound)
  · exact hrole (h.inputs _ hname _ _ hfound)

/-- A registry without variables has no names that could be taken. -/
theorem NamesFree.empty (h : NamesFree registry domain mode) : NamesFree {} domain mode :=
  ⟨h.envError, h.agentError, fun _ _ _ _ hfound => by simp [Registry.shared?] at hfound,
    fun _ _ _ _ hfound => by simp [Registry.shared?] at hfound⟩

/-- The name of a state bit that is reported is that of an error bit. -/
theorem Clash.of_firstRepeat (hfluents : domain.fluents.Nodup) {name : String}
    (h : firstRepeat (stateNames domain mode) = some name) :
    Clash registry domain mode (.duplicateVariable name) := by
  unfold stateNames at h
  rw [List.append_assoc, firstRepeat_append hfluents, List.singleton_append, firstRepeatAfter] at h
  split at h
  · next henv =>
    obtain rfl := Option.some.inj h
    exact .envError (List.mem_reverse.1 henv)
  cases mode with
  | invariant => exact absurd h (by simp [firstRepeatAfter])
  | errorBit =>
    rw [firstRepeatAfter] at h
    split at h
    · next hagent =>
      obtain rfl := Option.some.inj h
      refine .agentError rfl (List.mem_reverse.1 ((List.mem_cons.1 hagent).resolve_left ?_))
      decide
    · exact absurd h (by simp [firstRepeatAfter])

end Names

section Claims

/-- The registry with the state variables of a domain. -/
def withStates (registry : Registry) (domain : Domain) (mode : AgentErrorMode) : Registry :=
  (registry.newBlock (stateNames domain mode) (stateNames domain mode).zipIdx).2

/-- The registry with state variables and outputs, as far as these are not refused. -/
def withOutputs (registry : Registry) (domain : Domain) (mode : AgentErrorMode) : Registry :=
  ((withStates registry domain mode).claimAll .output (outputNames domain)).2

theorem eq_withStates (h : registry.newNamedBlock (stateNames domain mode) = .ok (id, opened)) :
    opened = withStates registry domain mode := by
  unfold Registry.newNamedBlock at h
  split at h
  · exact absurd h (by simp)
  · exact (congrArg Prod.snd (Except.ok.inj h)).symm

theorem shared?_withStates (registry : Registry) (domain : Domain) (mode : AgentErrorMode)
    (name : String) : (withStates registry domain mode).shared? name = registry.shared? name :=
  registry.shared?_newBlock _ _ name

/-- The names of the inputs are none of those of the outputs. -/
theorem shared?_withOutputs (registry : Registry) (mode : AgentErrorMode) {name : String}
    (h : name ∈ inputNames domain) :
    (withOutputs registry domain mode).shared? name = registry.shared? name :=
  (Registry.shared?_claimAll_of_not_mem (not_mem_codeNames h)).trans
    (shared?_withStates registry domain mode name)

/-- The outputs are claimed if their names are free; otherwise one of them is refused. -/
theorem outputs_result (registry : Registry) (domain : Domain) (mode : AgentErrorMode) :
    ((∃ vars, ((withStates registry domain mode).claimAll .output (outputNames domain)).1 =
        .ok vars) ∧
      ∀ name ∈ outputNames domain, ∀ v role,
        registry.shared? name = some (v, role) → role = .output) ∨
    ∃ name ∈ outputNames domain, ∃ v role,
      registry.shared? name = some (v, role) ∧ role ≠ .output ∧
      ((withStates registry domain mode).claimAll .output (outputNames domain)).1 =
        .error (.roleConflict name role .output) := by
  have h := (withStates registry domain mode).claimAll_result .output rfl (outputNames domain)
  simpa only [shared?_withStates] using h

/-- The inputs are claimed if their names are free; otherwise one of them is refused. -/
theorem inputs_result (registry : Registry) (domain : Domain) (mode : AgentErrorMode) :
    ((∃ vars, ((withOutputs registry domain mode).claimAll .input (inputNames domain)).1 =
        .ok vars) ∧
      ∀ name ∈ inputNames domain, ∀ v role,
        registry.shared? name = some (v, role) → role = .input) ∨
    ∃ name ∈ inputNames domain, ∃ v role,
      registry.shared? name = some (v, role) ∧ role ≠ .input ∧
      ((withOutputs registry domain mode).claimAll .input (inputNames domain)).1 =
        .error (.roleConflict name role .input) := by
  rcases (withOutputs registry domain mode).claimAll_result .input rfl (inputNames domain) with
    ⟨hvars, hfree⟩ | ⟨name, hname, v, role, hfound, hrole⟩
  · refine .inl ⟨hvars, fun name hname v role hfound => hfree name hname v role ?_⟩
    rwa [shared?_withOutputs registry mode hname]
  · rw [shared?_withOutputs registry mode hname] at hfound
    exact .inr ⟨name, hname, v, role, hfound, hrole⟩

theorem Clash.of_outputs {error : Error}
    (h : ((withStates registry domain mode).claimAll .output (outputNames domain)).1 =
      .error error) : Clash registry domain mode error := by
  obtain ⟨⟨vars, hvars⟩, -⟩ | ⟨name, hname, v, role, hfound, hrole, hrefused⟩ :=
    outputs_result registry domain mode
  · exact absurd (h.symm.trans hvars) (by simp)
  · obtain rfl := Except.error.inj (h.symm.trans hrefused)
    exact .output hname hfound hrole

theorem Clash.of_inputs {error : Error}
    (h : ((withOutputs registry domain mode).claimAll .input (inputNames domain)).1 =
      .error error) : Clash registry domain mode error := by
  obtain ⟨⟨vars, hvars⟩, -⟩ | ⟨name, hname, v, role, hfound, hrole, hrefused⟩ :=
    inputs_result registry domain mode
  · exact absurd (h.symm.trans hvars) (by simp)
  · obtain rfl := Except.error.inj (h.symm.trans hrefused)
    exact .input hname hfound hrole

theorem size_claimed_le (registry : Registry) (domain : Domain) (mode : AgentErrorMode) :
    ((withOutputs registry domain mode).claimAll .input (inputNames domain)).2.size ≤
      registry.size + varCount domain mode := by
  have hstates := registry.size_newBlock (stateNames domain mode) (stateNames domain mode).zipIdx
  have houtputs := (withStates registry domain mode).size_claimAll_le .output (outputNames domain)
  have hinputs := (withOutputs registry domain mode).size_claimAll_le .input (inputNames domain)
  rw [outputNames, length_codeNames] at houtputs
  rw [inputNames, length_codeNames] at hinputs
  change (withStates registry domain mode).size = _ at hstates
  change (withOutputs registry domain mode).size ≤ _ at houtputs
  rw [inputNames, varCount]
  omega

end Claims

section Outcome

variable (hs : sound manager.store)
include hs

/-- A domain is refused for a name that is taken, or positions run out. -/
theorem failsOnly_ofDomain (hdomain : domain.WellFormed) (hfluents : domain.fluents.Nodup)
    (hconsistent : strict sound → Consistent domain)
    (hsize : manager.registry.size + varCount domain mode < UInt32.size) :
    FailsOnly (fun failure => failure = .full ∨ ∃ error, failure = .refused error ∧
      Clash manager.registry domain mode error) (ofDomain domain mode) manager := by
  unfold ofDomain
  dsimp only
  refine ((failsOnly_newNamedStateVars _).weaken ?_).bind (yields_newNamedStateVars hs _)
    fun id m₁ hs₁ _ hopened => ?_
  · rintro failure ⟨name, hrepeat, rfl⟩
    exact .inr ⟨_, rfl, .of_firstRepeat hfluents hrepeat⟩
  have hstates := eq_withStates hopened
  refine ((failsOnly_claimVars .output (outputNames domain)).weaken ?_).bind
    (yields_claimVars hs₁ _ _) fun outputs m₂ hs₂ _ houtputs => ?_
  · rintro failure ⟨error, herror, rfl⟩
    exact .inr ⟨error, rfl, .of_outputs (hstates ▸ herror)⟩
  have hclaimed : m₂.registry = withOutputs manager.registry domain mode := by
    rw [withOutputs, ← hstates, houtputs]
  refine ((failsOnly_claimVars .input (inputNames domain)).weaken ?_).bind
    (yields_claimVars hs₂ _ _) fun inputs m₃ hs₃ _ hinputs => ?_
  · rintro failure ⟨error, herror, rfl⟩
    exact .inr ⟨error, rfl, .of_inputs (hclaimed ▸ herror)⟩
  have hlast := (size_claimed_le manager.registry domain mode).trans_lt hsize
  rw [← hclaimed, hinputs] at hlast
  obtain ⟨vars, hopens⟩ := Registry.opens_newNamedBlock hopened
  have hplaced := placed_of_size_lt hopens (Registry.claims_claimAll houtputs)
    (Registry.claims_claimAll hinputs) hlast
  have hlength : vars.length = (stateNames domain mode).length := by
    simpa using hopens.declares.length_eq.symm
  refine failsOnly_note_bind ⟨hs₃, rfl⟩ _ _ fun m₄ hm₄ _ => ?_
  exact (completes_encode hm₄ hplaced hdomain hconsistent hlength).weaken fun _ => .inl

/-- A domain that is encoded had its names free. -/
theorem namesFree_of_ofDomain {encoding : Encoding} {later : Manager}
    (hrun : (ofDomain domain mode).run.run manager = (.ok encoding, later)) :
    NamesFree manager.registry domain mode := by
  unfold ofDomain at hrun
  obtain ⟨id, m₁, hopen, hrun⟩ := exists_run_of_bind hrun
  obtain ⟨hs₁, -, hopened⟩ := yields_newNamedStateVars hs _ id m₁ hopen
  obtain ⟨vars, hopens⟩ := Registry.opens_newNamedBlock hopened
  have hstates := eq_withStates hopened
  obtain ⟨outputs, m₂, hclaim, hrun⟩ := exists_run_of_bind hrun
  obtain ⟨hs₂, -, houtputs⟩ := yields_claimVars hs₁ .output (outputNames domain) outputs m₂ hclaim
  have hclaimed : m₂.registry = withOutputs manager.registry domain mode := by
    rw [withOutputs, ← hstates, houtputs]
  obtain ⟨inputs, m₃, hclaim, -⟩ := exists_run_of_bind hrun
  obtain ⟨-, -, hinputs⟩ := yields_claimVars hs₂ .input (inputNames domain) inputs m₃ hclaim
  have hnodup := hopens.nodup
  unfold stateNames at hnodup
  obtain ⟨hnodup, -, hagent⟩ := List.nodup_append.1 hnodup
  obtain ⟨-, -, henv⟩ := List.nodup_append.1 hnodup
  refine ⟨fun hmem => henv _ hmem _ (by simp) rfl, ?_, ?_, ?_⟩
  · rintro rfl hmem
    exact hagent _ (List.mem_append_left _ hmem) _ (by simp) rfl
  · obtain ⟨-, hfree⟩ | ⟨name, -, v, role, -, -, hrefused⟩ :=
      outputs_result manager.registry domain mode
    · exact hfree
    · rw [← hstates, houtputs] at hrefused
      exact absurd hrefused (by simp)
  · obtain ⟨-, hfree⟩ | ⟨name, -, v, role, -, -, hrefused⟩ :=
      inputs_result manager.registry domain mode
    · exact hfree
    · rw [← hclaimed, hinputs] at hrefused
      exact absurd hrefused (by simp)

/-- Where the names are free, there is an encoding as long as there are numbers for its
variables. -/
theorem completes_ofDomain (hdomain : domain.WellFormed) (hfluents : domain.fluents.Nodup)
    (hconsistent : strict sound → Consistent domain)
    (hfree : NamesFree manager.registry domain mode)
    (hsize : manager.registry.size + varCount domain mode < UInt32.size) :
    Completes (ofDomain domain mode) manager :=
  (failsOnly_ofDomain hs hdomain hfluents hconsistent hsize).weaken fun _ h =>
    h.resolve_right fun ⟨error, _, hclash⟩ => hfree.not_clash error hclash

end Outcome

end Encoding

end PlanningGame
