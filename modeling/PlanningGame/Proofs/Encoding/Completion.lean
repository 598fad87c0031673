import Mathlib
import PlanningGame.Proofs.Failing
import PlanningGame.Proofs.Encoding.Assembly

/-!
# Encodings are built

What is checked on the way to an encoding has been checked for the domain before: all fluents that
the domain mentions have a place among the state variables, and no variable is zero. So over given
variables an encoding is built unless all positions of the store are used up.
-/
namespace PlanningGame

namespace Encoding

open Manager Store.Soundness

variable {registry : Registry} {manager : Manager} {id : BlockId} {vars : List Var} {store : Store}
  {choice answer : Valuation → Option String} {actions : List Action} {domain : Domain}
  {mode : AgentErrorMode} {pairs : List (Action × PairPredicates)} {agents reactions : CodeTable}
  {sound : Store → Prop} [Store.Soundness sound]

section Players

theorem completes_create (hs : sound store) {names : List String} (h : CodeTable.Fits names vars) :
    Completes (CodeTable.create names vars) store := by
  have hcube : ∀ i ∈ List.range names.length, ∀ now : Store, sound now → store ≤ now →
      Completes (CodeTable.codeCube vars i) now ∧
        PlanningGame.Yields sound (CodeTable.codeCube vars i) now fun _ _ => True := by
    intro i _ now hnow _
    have hens := Diagram.ensures_assignmentCube hnow h.vars_nodup h.ne_zero
      (Binary.length_encode i vars.length)
    exact ⟨hens.completes, hens.yields.weaken fun _ _ _ _ _ => trivial⟩
  unfold CodeTable.create
  have hyields := yields_mapM_sound hs fun i hi now hnow hle => (hcube i hi now hnow hle).2
  exact (failsOnly_mapM hs hcube).bind hyields fun _ _ _ _ _ => failsOnly_pure _

theorem completes_allPredicates (hs : sound store)
    (hagents : Tabled store choice agents (actions.map (·.agent)))
    (hreactions : Tabled store answer reactions (actions.map (·.reaction))) :
    Completes (allPredicates agents reactions actions) store := by
  have hpair : ∀ action ∈ actions, ∀ now : Store, sound now → store ≤ now →
      Completes (pairPredicates agents reactions action) now ∧
        PlanningGame.Yields sound (pairPredicates agents reactions action) now
          fun _ _ => True := by
    intro action haction now hnow hle
    have hagent := (hagents _ (List.mem_map_of_mem haction)).mono (founded hs) hle
    have hreaction := (hreactions _ (List.mem_map_of_mem haction)).mono (founded hs) hle
    have hboth := Diagram.ensures_conj hnow hagent hreaction
    constructor
    · exact hboth.answers.completes_bind fun _ _ _ _ _ => failsOnly_pure _
    · exact hboth.yields.bind fun _ _ hlater _ _ => yields_pure hlater trivial
  exact failsOnly_mapM hs hpair

theorem completes_selection {outputs inputs : List Var} (hs : sound store)
    (houtputs : CodeTable.Fits (CodeTable.sortedNames (actions.map (·.agent))) outputs)
    (hinputs : CodeTable.Fits (CodeTable.sortedNames (actions.map (·.reaction))) inputs) :
    Completes (selection actions (CodeTable.sortedNames (actions.map (·.agent)))
      (CodeTable.sortedNames (actions.map (·.reaction))) outputs inputs) store := by
  unfold selection
  refine (completes_create hs houtputs).bind (CodeTable.yields_create hs houtputs)
    fun agents s₁ hs₁ hle₁ ⟨hagents, hagentNames, hagentVars⟩ => ?_
  refine (completes_create hs₁ hinputs).bind (CodeTable.yields_create hs₁ hinputs)
    fun reactions s₂ hs₂ hle₂ ⟨hreactions, hreactionNames, hreactionVars⟩ => ?_
  have hagents := hagents.mono (founded hs₁) hle₂
  have htable := tabled_of_right hagents hagentNames
  have htable' := tabled_of_right hreactions hreactionNames
  refine (completes_allPredicates hs₂ htable htable').bind
    (yields_allPredicates hs₂ htable htable') fun predicates s₃ hs₃ hle₃ _ => ?_
  have hagentMutex := CodeTable.ensures_disjAll_cubes hs₃ (hagents.mono (founded hs₂) hle₃)
  refine hagentMutex.answers.completes_bind fun agentMutex s₄ hs₄ hle₄ _ => ?_
  have henvMutex := CodeTable.ensures_disjAll_cubes hs₄
    (hreactions.mono (founded hs₂) (hle₃.trans hle₄))
  exact henvMutex.answers.completes_bind fun _ _ _ _ _ => failsOnly_pure _

theorem completes_nextFluent (hm : StandsIn sound registry manager) (hid : Owns registry id vars)
    (h : Listed manager.store choice answer actions pairs) {fluent : Nat}
    (hfluent : fluent < vars.length) : Completes (nextFluent id pairs fluent) manager := by
  unfold nextFluent
  have hadded := ensures_someSelected hm.sound h (·.adds.contains fluent)
  refine (answers_lift hm hadded.answers).completes_bind fun added m₁ hm₁ hle₁ hadded => ?_
  have hdeleted := ensures_someSelected hm₁.sound (h.mono (founded hm.sound) hle₁.1)
    (·.deletes.contains fluent)
  refine (answers_lift hm₁ hdeleted.answers).completes_bind fun deleted m₂ hm₂ hle₂ hdeleted => ?_
  refine (answers_stateBit hm₂ hid hfluent).completes_bind fun bit m₃ hm₃ hle₃ hbit => ?_
  have hdeleted := (hdeleted.mono (founded hm₂.sound) hle₃.1).neg (founded hm₃.sound)
  have hkept := Diagram.ensures_conj hm₃.sound hbit hdeleted
  refine (answers_lift hm₃ hkept.answers).completes_bind fun kept m₄ hm₄ hle₄ hkept => ?_
  have hadded := hadded.mono (founded hm₁.sound) ((hle₂.trans hle₃).trans hle₄).1
  exact failsOnly_lift (Diagram.ensures_disj hm₄.sound hkept hadded).completes

theorem completes_legalAgents {legal : Std.TreeMap String Edge} (hs : sound store)
    (hlegal : ∀ reaction : String, store.Has (legal.getD reaction .zero))
    (hpairs : ∀ pair ∈ pairs, store.Has pair.2.agent) :
    Completes (legalAgents legal pairs) store := by
  induction pairs generalizing store legal with
  | nil => exact failsOnly_pure legal
  | cons pair rest ih =>
    obtain ⟨action, predicates⟩ := pair
    obtain ⟨hpair, hrest⟩ := List.forall_mem_cons.1 hpairs
    rw [legalAgents]
    have hagents := Diagram.ensures_disj hs (hlegal action.reaction).denotes hpair.denotes
    refine hagents.answers.completes_bind fun e later hlater hle he => ?_
    refine ih hlater (fun reaction => ?_) fun p hp => (hrest p hp).mono hle
    rw [Std.TreeMap.getD_insert]
    split
    · exact he.has
    · exact (hlegal reaction).mono hle

theorem completes_reactionLegal (hs : sound store) (h : Listed store choice answer actions pairs)
    (hreactions : Tabled store answer reactions (actions.map (·.reaction))) :
    Completes (reactionLegal reactions pairs) store := by
  have hnone : Legal store choice [] ∅ :=
    ⟨fun _ => by simp, fun _ => (founded hs).denotes_zero.congr fun _ => by simp⟩
  unfold reactionLegal
  refine (completes_legalAgents hs (fun reaction => (hnone.edges reaction).has) fun pair hpair =>
    (h.shows_mem pair hpair).agent.has).bind (yields_legalAgents hs hnone h.shows_mem)
      fun legal now hnow hle hlegal => ?_
  rw [List.nil_append, h.actions_eq] at hlegal
  have himply : ∀ p ∈ legal.toList, ∀ m : Store, sound m → now ≤ m →
      Diagram.EnsuresIn sound (Diagram.imply (reactions.cube p.1) p.2) m fun e later =>
        later.Denotes e fun a => answer a = some p.1 →
          ∃ action ∈ actions, action.reaction = p.1 ∧ choice a = some action.agent := by
    intro p hp m hm hle'
    obtain ⟨hreaction, he⟩ := hlegal.of_mem_toList hp
    have hcube := (hreactions p.1 hreaction).mono (founded hs) (hle.trans hle')
    exact Diagram.ensures_imply hm hcube (he.mono (founded hnow) hle')
  refine (answers_mapM hnow (fun _ _ _ _ hnow hle he => he.mono (founded hnow) hle)
    fun p hp m hm hle' => (himply p hp m hm hle').answers).completes_bind
      fun answers later hlater _ heach => ?_
  exact (Diagram.ensures_conjAll_each hlater heach).completes

end Players

section Conditions

omit [Store.Soundness sound] in
theorem completes_stateLiterals (hm : StandsIn sound registry manager) (hid : Owns registry id vars)
    (value : Bool) {places : List Nat} (hplaces : ∀ i ∈ places, i < vars.length) :
    Completes (places.mapM (stateLiteral id value)) manager := by
  refine failsOnly_mapM hm fun i hi now hnow _ => ⟨?_, yields_stateLiteral hnow hid value i⟩
  obtain ⟨labels, hblock⟩ := hid.block
  unfold stateLiteral
  refine failsOnly_block_bind hnow hblock ?_
  dsimp only
  rw [List.getElem?_eq_getElem (hplaces i hi)]
  exact failsOnly_pure _

theorem completes_fluentCube (hm : StandsIn sound registry manager) (hid : Owns registry id vars)
    {holding failing : FluentSet} (hdisjoint : strict sound → ∀ i ∈ holding, i ∉ failing)
    (hholding : ∀ i ∈ holding, i < vars.length) (hfailing : ∀ i ∈ failing, i < vars.length) :
    Completes (fluentCube id holding failing) manager := by
  have hpos : ∀ i ∈ holding.toList, i < vars.length := fun i hi =>
    hholding i (Std.TreeSet.mem_toList.1 hi)
  have hneg : ∀ i ∈ failing.toList, i < vars.length := fun i hi =>
    hfailing i (Std.TreeSet.mem_toList.1 hi)
  unfold fluentCube
  refine (completes_stateLiterals hm hid true hpos).bind (yields_stateLiterals hm hid true _)
    fun positive now hnow _ ⟨_, hpositive⟩ => ?_
  refine (completes_stateLiterals hnow hid false hneg).bind (yields_stateLiterals hnow hid false _)
    fun negative later hlater _ ⟨_, hnegative⟩ => ?_
  have hliterals : positive ++ negative =
      (valuesAt vars holding.toList true ++ valuesAt vars failing.toList false).map
        fun p => signedLiteral p.1 p.2 := by
    simp [valuesAt, hpositive, hnegative, Function.comp_def]
  have hlt := List.forall_mem_append.2 ⟨hpos, hneg⟩
  rw [hliterals]
  exact failsOnly_lift (Diagram.ensures_cube_assigns hlater.sound (valuesAt_ne_zero hid hlt)
    fun h => valuesAt_nodup hid (hdisjoint h) hlt).completes

theorem completes_applicable (hid : Owns registry id vars) {rest : List Action} {seen : List String}
    {edge : Edge} (hm : StandsIn sound registry manager) (hedge : manager.store.Has edge)
    (hagents : Tabled manager.store choice agents (rest.map (·.agent)))
    (hdisjoint : strict sound → ∀ action ∈ rest, ∀ i ∈ action.required, i ∉ action.forbidden)
    (hrequired : ∀ action ∈ rest, ∀ i ∈ action.required, i < vars.length)
    (hforbidden : ∀ action ∈ rest, ∀ i ∈ action.forbidden, i < vars.length) :
    Completes (applicable id agents seen edge rest) manager := by
  induction rest generalizing manager seen edge with
  | nil => exact failsOnly_pure edge
  | cons action rest ih =>
    have hfirst : strict sound → ∀ i ∈ action.required, i ∉ action.forbidden :=
      fun h => hdisjoint h action List.mem_cons_self
    have hothers : strict sound → ∀ other ∈ rest, ∀ i ∈ other.required, i ∉ other.forbidden :=
      fun h other hother => hdisjoint h other (List.mem_cons_of_mem _ hother)
    obtain ⟨hrequired, hrequireds⟩ := List.forall_mem_cons.1 hrequired
    obtain ⟨hforbidden, hforbiddens⟩ := List.forall_mem_cons.1 hforbidden
    have hcube := hagents action.agent (by simp)
    have htable : Tabled manager.store choice agents (rest.map (·.agent)) :=
      fun name hname => hagents name (List.mem_cons_of_mem _ hname)
    rw [applicable]
    split
    · exact ih hm hedge htable hothers hrequireds hforbiddens
    · refine (completes_fluentCube hm hid hfirst hrequired hforbidden).bind
        (yields_fluentCube hm hid hfirst) fun conditions m₁ hm₁ hle₁ hconditions => ?_
      have hpermitted := Diagram.ensures_imply hm₁.sound (hcube.mono (founded hm.sound) hle₁.1)
        hconditions.1
      refine (answers_lift hm₁ hpermitted.answers).completes_bind
        fun permitted m₂ hm₂ hle₂ hpermitted => ?_
      have hboth := Diagram.ensures_conj hm₂.sound (hedge.mono (hle₁.trans hle₂).1).denotes
        hpermitted
      refine (answers_lift hm₂ hboth.answers).completes_bind fun both m₃ hm₃ hle₃ hboth => ?_
      exact ih hm₃ hboth.has (htable.mono (founded hm.sound) ((hle₁.trans hle₂).trans hle₃).1)
        hothers hrequireds hforbiddens

theorem completes_excludes (hid : Owns registry id vars) (hm : StandsIn sound registry manager)
    {edge : Edge} (hedge : manager.store.Has edge) {fluent : Nat} {failing holding : List Nat}
    (hfluent : fluent < vars.length) (hfailing : ∀ i ∈ failing, i < vars.length)
    (hholding : ∀ i ∈ holding, i < vars.length) :
    Completes (excludes id edge fluent failing holding) manager := by
  have hneg : ∀ place ∈ failing, ∀ now, StandsIn sound registry now → manager ≤ now →
      Answers (StandsIn sound registry) (do return -(← stateBit id place)) now fun e later =>
        later.store.Denotes e fun a => ¬ (vars.map a)[place]? = some true :=
    fun place hplace now hnow _ => (answers_stateBit hnow hid (hfailing place hplace)).bind
      fun _ _ hlater _ he => answers_pure hlater (he.neg (founded hlater.sound))
  unfold excludes
  refine (answers_mapM hm (fun _ _ _ _ hnow hle he => he.mono (founded hnow.sound) hle.1)
    hneg).completes_bind fun negative m₁ hm₁ hle₁ hnegative => ?_
  refine (answers_mapM hm₁ (fun _ _ _ _ hnow hle he => he.mono (founded hnow.sound) hle.1)
    fun place hplace now hnow _ => answers_stateBit hnow hid (hholding place hplace)).completes_bind
      fun positive m₂ hm₂ hle₂ hpositive => ?_
  have hnegative : m₁.store.DenotesEach (fun j a => ¬ (vars.map a)[j]? = some true) failing
      negative := hnegative
  have hpositive : m₂.store.DenotesEach (fun j a => (vars.map a)[j]? = some true) holding
      positive := hpositive
  have hothers := Diagram.ensures_conjAll hm₂.sound (List.forall_mem_append.2
    ⟨fun e he => (hnegative.has e he).mono hle₂.1, hpositive.has⟩)
  refine (answers_lift hm₂ hothers.answers).completes_bind fun others m₃ hm₃ hle₃ hothers => ?_
  refine (answers_stateBit hm₃ hid hfluent).completes_bind fun bit m₄ hm₄ hle₄ hbit => ?_
  have hneeded := Diagram.ensures_imply hm₄.sound hbit (hothers.mono (founded hm₃.sound) hle₄.1)
  refine (answers_lift hm₄ hneeded.answers).completes_bind fun needed m₅ hm₅ hle₅ hneeded => ?_
  have hedge := hedge.mono ((((hle₁.trans hle₂).trans hle₃).trans hle₄).trans hle₅).1
  exact failsOnly_lift (Diagram.ensures_conj hm₅.sound hedge.denotes hneeded).completes

theorem completes_foldlM_excludes (hid : Owns registry id vars)
    (hm : StandsIn sound registry manager) {edge : Edge} (hedge : manager.store.Has edge)
    {fluents : List Nat} {failing holding : Nat → List Nat}
    (hfluents : ∀ i ∈ fluents, i < vars.length)
    (hfailing : ∀ i, ∀ j ∈ failing i, j < vars.length)
    (hholding : ∀ i, ∀ j ∈ holding i, j < vars.length) :
    Completes (fluents.foldlM (fun edge fluent =>
      excludes id edge fluent (failing fluent) (holding fluent)) edge) manager := by
  induction fluents generalizing manager edge with
  | nil => exact failsOnly_pure edge
  | cons fluent rest ih =>
    obtain ⟨hfluent, hrest⟩ := List.forall_mem_cons.1 hfluents
    rw [List.foldlM_cons]
    exact (completes_excludes hid hm hedge hfluent (hfailing fluent) (hholding fluent)).bind
      (yields_excludes hid hm hedge.denotes fluent _ _) fun e now hnow _ he => ih hnow he.has hrest

theorem completes_invariantEdge (hid : Owns registry id vars) (hm : StandsIn sound registry manager)
    {invariant : Invariant} (hpositive : ∀ i ∈ invariant.positive, i < vars.length)
    (hnegative : ∀ i ∈ invariant.negative, i < vars.length) :
    Completes (invariantEdge id invariant) manager := by
  have hpos : ∀ i ∈ invariant.positive.toList, i < vars.length := fun i hi =>
    hpositive i (Std.TreeSet.mem_toList.1 hi)
  have hneg : ∀ i ∈ invariant.negative.toList, i < vars.length := fun i hi =>
    hnegative i (Std.TreeSet.mem_toList.1 hi)
  have hfilter : ∀ {l : List Nat}, (∀ i ∈ l, i < vars.length) → ∀ fluent,
      ∀ i ∈ l.filter (· ≠ fluent), i < vars.length := fun hl fluent i hi =>
    hl i (List.mem_of_mem_filter hi)
  unfold invariantEdge
  dsimp only
  refine (completes_foldlM_excludes hid hm (founded hm.sound).has_one hpos (hfilter hpos)
    fun _ => hneg).bind
      (yields_foldlM_excludes hid hm (founded hm.sound).denotes_one _ _ fun _ => _)
      fun edge now hnow _ hedge => ?_
  exact completes_foldlM_excludes hid hnow hedge.has hneg (fun _ => hpos) (hfilter hneg)

theorem completes_invariantsEdge (hid : Owns registry id vars)
    (hm : StandsIn sound registry manager) (hdomain : domain.WellFormed)
    (hfluents : domain.fluents.length ≤ vars.length) :
    Completes (invariantsEdge domain id) manager := by
  have hinvariant : ∀ invariant ∈ domain.invariants, ∀ now, StandsIn sound registry now →
      manager ≤ now → Answers (StandsIn sound registry) (invariantEdge id invariant) now
        fun e later => later.store.Denotes e fun a => invariant.Holds (vars.map a) :=
    fun invariant hmem now hnow _ => ⟨completes_invariantEdge hid hnow
      (fun i hi => (hdomain.positive_lt invariant hmem i hi).trans_le hfluents)
      fun i hi => (hdomain.negative_lt invariant hmem i hi).trans_le hfluents,
      yields_invariantEdge hid hnow invariant⟩
  unfold invariantsEdge
  refine (answers_mapM hm (fun _ _ _ _ hnow hle he => he.mono (founded hnow.sound) hle.1)
    hinvariant).completes_bind fun edges m₁ hm₁ _ hedges => ?_
  exact failsOnly_lift (Diagram.ensures_conjAll_each hm₁.sound hedges).completes

theorem completes_nextEnvError (hm : StandsIn sound registry manager) (hid : Owns registry id vars)
    {place : Nat} {envMutex envPrecondition : Edge} (hplace : place < vars.length)
    (hmutex : manager.store.Has envMutex) (hprecondition : manager.store.Has envPrecondition) :
    Completes (nextEnvError id place envMutex envPrecondition) manager := by
  unfold nextEnvError
  refine (answers_stateBit hm hid hplace).completes_bind fun bit m₁ hm₁ hle₁ hbit => ?_
  have hviolation := Diagram.ensures_disj hm₁.sound
    ((hmutex.mono hle₁.1).denotes.neg (founded hm₁.sound))
    ((hprecondition.mono hle₁.1).denotes.neg (founded hm₁.sound))
  refine (answers_lift hm₁ hviolation.answers).completes_bind
    fun violation m₂ hm₂ hle₂ hviolation => ?_
  exact failsOnly_lift (Diagram.ensures_disj hm₂.sound
    (hbit.mono (founded hm₁.sound) hle₂.1) hviolation).completes

theorem completes_nextAgentError (hm : StandsIn sound registry manager)
    (hid : Owns registry id vars) {place : Nat} {agentOk : Edge}
    (hagentOk : manager.store.Has agentOk) (mode : AgentErrorMode)
    (hplace : mode = .errorBit → place < vars.length) :
    Completes (nextAgentError id place agentOk mode) manager := by
  cases mode with
  | invariant => exact failsOnly_pure []
  | errorBit =>
    unfold nextAgentError
    refine (answers_stateBit hm hid (hplace rfl)).completes_bind fun bit m₁ hm₁ hle₁ hbit => ?_
    have hset := Diagram.ensures_disj hm₁.sound hbit
      ((hagentOk.mono hle₁.1).denotes.neg (founded hm₁.sound))
    exact (answers_lift hm₁ hset.answers).completes_bind fun _ _ _ _ _ => failsOnly_pure _

end Conditions

section Assembly

variable {automaton : Automaton} {agentOk : Edge}

theorem completes_safety (hm : StandsIn sound registry manager)
    (hid : Owns registry automaton.block vars) (hagentOk : manager.store.Has agentOk)
    (mode : AgentErrorMode)
    (hinitial : automaton.initial.length = vars.length)
    (hplace : mode = .errorBit → domain.fluents.length + 1 < vars.length) :
    Completes (safety domain mode automaton agentOk) manager := by
  cases mode with
  | invariant =>
    refine (completes_stateCube hm hid hinitial.symm).bind
      (yields_stateCube hm hid automaton.initial) fun cube m₁ hm₁ hle₁ hcube => ?_
    exact failsOnly_lift
      (Diagram.ensures_disj hm₁.sound (hagentOk.mono hle₁.1).denotes hcube).completes
  | errorBit =>
    exact (answers_stateBit hm hid (hplace rfl)).completes_bind fun _ _ _ _ _ => failsOnly_pure _

theorem completes_playable (hm : StandsIn sound registry manager)
    (hid : Owns registry automaton.block vars) (hdomain : domain.WellFormed)
    (hagentOk : manager.store.Denotes agentOk fun a =>
      ∃ chosen, choice a = some chosen ∧ domain.Applicable chosen (vars.map a))
    (mode : AgentErrorMode) (hfluents : domain.fluents.length ≤ vars.length)
    (hinitial : automaton.initial.length = vars.length)
    (hplace : mode = .errorBit → domain.fluents.length + 1 < vars.length) :
    Completes (playable domain mode automaton agentOk) manager := by
  rw [playable_eq]
  refine (completes_invariantsEdge hid hm hdomain hfluents).bind
    (yields_invariantsEdge hid hm domain) fun invariants m₁ hm₁ hle₁ hinvariants => ?_
  have hagentOk := hagentOk.mono (founded hm.sound) hle₁.1
  refine (completes_safety hm₁ hid hagentOk.has mode hinitial hplace).bind
    (yields_safety hm₁ hid hagentOk mode) fun safe m₂ hm₂ hle₂ hsafe => ?_
  exact failsOnly_lift (Diagram.ensures_conj hm₂.sound
    (hinvariants.mono (founded hm₁.sound) hle₂.1) hsafe).completes

/-- As many next values as there are state bits. -/
theorem length_stateNames_eq {fluents agentErrors : List Edge} (envError : Edge)
    (hfluents : fluents.length = domain.fluents.length)
    (herrors : agentErrors.length = (Bit.errors mode).length) :
    (fluents ++ [envError] ++ agentErrors).length = (stateNames domain mode).length := by
  cases mode <;> simp [stateNames, hfluents, herrors, Bit.errors]

theorem completes_encode (hm : StandsIn sound registry manager) {outputs inputs : List Var}
    (hplaced : Placed registry domain mode id vars outputs inputs) (hdomain : domain.WellFormed)
    (hconsistent : strict sound → Consistent domain)
    (hlength : vars.length = (stateNames domain mode).length) :
    Completes (encode domain mode id outputs inputs) manager := by
  have hid := hplaced.owns
  have hfluents : domain.fluents.length < vars.length := by
    rw [hlength]
    simp [stateNames]
  have hplace : mode = .errorBit → domain.fluents.length + 1 < vars.length := by
    rintro rfl
    rw [hlength]
    simp [stateNames]
  unfold encode
  dsimp only
  refine (failsOnly_lift (completes_selection hm.sound hplaced.outputs_fit
    hplaced.inputs_fit)).bind (yields_lift hm (yields_selection hm.sound hplaced.outputs_fit
      hplaced.inputs_fit)) fun selection m₅ hm₅ hle₅ hselects => ?_
  have hnext : ∀ i ∈ List.range domain.fluents.length, ∀ now, StandsIn sound registry now →
      m₅ ≤ now → Answers (StandsIn sound registry)
        (nextFluent id (domain.actionList.zip selection.predicates) i) now
        fun e later => later.store.Has e := by
    intro i hi now hnow hle
    have hlisted := hselects.listed.mono (founded hm₅.sound) hle.1
    exact ⟨completes_nextFluent hnow hid hlisted ((List.mem_range.1 hi).trans hfluents),
      (yields_nextFluent hnow hid hlisted i).weaken fun _ _ _ _ he => he.has⟩
  refine (answers_mapM hm₅ (fun _ _ _ _ _ hle he => he.mono hle.1) hnext).completes_bind
    fun fluents m₆ hm₆ hle₆ heach => ?_
  have hselects₆ := hselects.mono (founded hm₅.sound) hle₆.1
  refine (failsOnly_lift (completes_reactionLegal hm₆.sound hselects₆.listed
    hselects₆.reactions)).bind (yields_lift hm₆ (yields_reactionLegal hm₆.sound hselects₆.listed
      hselects₆.reactions fun a r hr => exists_agent_of_chosen hr))
        fun envPrecondition m₇ hm₇ hle₇ henv => ?_
  have hselects₇ := hselects₆.mono (founded hm₆.sound) hle₇.1
  refine (completes_applicable hid hm₇ (founded hm₇.sound).has_one hselects₇.agents
    (fun h => (hconsistent h).actions) (fun action hmem i hi =>
      (hdomain.required_lt action hmem i hi).trans hfluents) fun action hmem i hi =>
        (hdomain.forbidden_lt action hmem i hi).trans hfluents).bind
    (yields_agentPrecondition hm₇ hid hselects₇.agents fun h => (hconsistent h).actions)
    fun agentPrecondition m₈ hm₈ hle₈ hagent => ?_
  have hselects₈ := hselects₇.mono (founded hm₇.sound) hle₈.1
  have henv := henv.mono (founded hm₇.sound) hle₈.1
  refine (completes_nextEnvError hm₈ hid hfluents hselects₈.envMutex.has henv.has).bind
    (yields_nextEnvError hm₈ hid hselects₈.envMutex henv) fun envError m₉ hm₉ hle₉ henvError => ?_
  have hselects₉ := hselects₈.mono (founded hm₈.sound) hle₉.1
  have hagentOk := Diagram.ensures_conj hm₉.sound (hagent.mono (founded hm₈.sound) hle₉.1)
    hselects₉.agentMutex
  refine (answers_lift hm₉ hagentOk.answers).completes_bind
    fun agentOk m₁₀ hm₁₀ hle₁₀ hagentOk => ?_
  have hagentOk := hagentOk.congr fun a => forall_and_isSome_iff
  refine (completes_nextAgentError hm₁₀ hid hagentOk.has mode hplace).bind
    (yields_nextAgentError hm₁₀ hid (fun bit a => bit.Next domain (vars.map a)
      (CodeTable.chosen (agentNamesOf domain) outputs a)
      (CodeTable.chosen (reactionNamesOf domain) inputs a)) hagentOk (fun _ => Iff.rfl) mode)
    fun agentError m₁₁ hm₁₁ hle₁₁ hagentError => ?_
  refine (completes_fluentCube hm₁₁ hid (fun h => (hconsistent h).goal)
    (fun i hi => (hdomain.goal_lt i hi).trans hfluents)
    fun i hi => (hdomain.goalForbidden_lt i hi).trans hfluents).bind
    (yields_goalCube hid hm₁₁ fun h => (hconsistent h).goal) fun finals m₁₂ hm₁₂ hle₁₂ _ => ?_
  have hinitial : (domain.initial ++ List.replicate
      ((stateNames domain mode).length - domain.fluents.length) false).length = vars.length := by
    rw [List.length_append, List.length_replicate, hdomain.initial_length, ← hlength]
    omega
  have hcount : (fluents ++ [envError] ++ agentError).length = vars.length := by
    rw [hlength]
    exact length_stateNames_eq envError (by simpa using (List.Forall₂.length_eq heach).symm)
      (List.Forall₂.length_eq hagentError).symm
  refine (Automaton.completes_create hm₁₂ hplaced.block hinitial hcount _).bind
    (Automaton.yields_create hm₁₂ hplaced.block _ _ _)
    fun automaton m₁₃ hm₁₃ hle₁₃ hautomaton => ?_
  obtain ⟨rfl, -, -⟩ := hautomaton
  dsimp only
  have hle₁₀' := (hle₁₁.trans hle₁₂).trans hle₁₃
  have hagentOk := hagentOk.mono (founded hm₁₀.sound) hle₁₀'.1
  refine (completes_playable hm₁₃ hid hdomain hagentOk mode hfluents.le hinitial hplace).bind
    (yields_playable hm₁₃ hid hagentOk mode) fun invariant m₁₄ hm₁₄ hle₁₄ _ => ?_
  exact failsOnly_note_bind hm₁₄ _ _ fun _ _ _ => failsOnly_pure _

end Assembly

end Encoding

end PlanningGame
