import Mathlib
import PlanningGame.Proofs.Automaton.Basic
import PlanningGame.Proofs.Encoding.Conditions
import PlanningGame.Proofs.Encoding.Numbering

/-!
# Encodings say what the domain says

The diagrams of an encoding are those of conditions on the state of the automaton, the action that
the outputs name and the reaction that the inputs name. The variables are different from each
other, so the automaton is a closed arena.
-/
namespace PlanningGame.Encoding

open Manager Store.Soundness

variable {registry : Registry} {manager : Manager} {id : BlockId} {vars : List Var}
  {sound : Store → Prop} {domain : Domain} {mode : AgentErrorMode} {actions : List Action}
  {choice answer : Valuation → Option String}

section Players

variable {store : Store}

/-- The codes of all names, and what is selected by them. -/
structure Selects (store : Store) (choice answer : Valuation → Option String)
    (actions : List Action) (selection : Selection) : Prop where
  agents : Tabled store choice selection.agents (actions.map (·.agent))
  reactions : Tabled store answer selection.reactions (actions.map (·.reaction))
  listed : Listed store choice answer actions (actions.zip selection.predicates)
  agentMutex : store.Denotes selection.agentMutex fun a => (choice a).isSome = true
  envMutex : store.Denotes selection.envMutex fun a => (answer a).isSome = true

theorem Selects.mono {later : Store} {selection : Selection}
    (h : Selects store choice answer actions selection) (hr : store.Founded)
    (hle : store ≤ later) : Selects later choice answer actions selection :=
  ⟨h.agents.mono hr hle, h.reactions.mono hr hle, h.listed.mono hr hle, h.agentMutex.mono hr hle,
    h.envMutex.mono hr hle⟩

theorem tabled_of_right {table : CodeTable} {names : List String}
    (h : CodeTable.Right store table) (hnames : table.names = CodeTable.sortedNames names) :
    Tabled store (CodeTable.chosen table.names table.vars) table names :=
  fun _ hname => h.denotes_cube (hnames ▸ CodeTable.mem_sortedNames_iff.2 hname)

variable [Store.Soundness sound]

theorem yields_selection {outputs inputs : List Var} (hs : sound store)
    (houtputs : CodeTable.Fits (CodeTable.sortedNames (actions.map (·.agent))) outputs)
    (hinputs : CodeTable.Fits (CodeTable.sortedNames (actions.map (·.reaction))) inputs) :
    PlanningGame.Yields sound (selection actions (CodeTable.sortedNames (actions.map (·.agent)))
        (CodeTable.sortedNames (actions.map (·.reaction))) outputs inputs) store
      fun selection later =>
        Selects later (CodeTable.chosen (CodeTable.sortedNames (actions.map (·.agent))) outputs)
          (CodeTable.chosen (CodeTable.sortedNames (actions.map (·.reaction))) inputs) actions
          selection := by
  unfold selection
  refine (CodeTable.yields_create hs houtputs).bind
    fun agents s₁ hs₁ hle₁ ⟨hagents, hagentNames, hagentVars⟩ => ?_
  refine (CodeTable.yields_create hs₁ hinputs).bind
    fun reactions s₂ hs₂ hle₂ ⟨hreactions, hreactionNames, hreactionVars⟩ => ?_
  have hagents := hagents.mono (founded hs₁) hle₂
  rw [← hagentNames, ← hagentVars, ← hreactionNames, ← hreactionVars]
  have htable := tabled_of_right hagents hagentNames
  have htable' := tabled_of_right hreactions hreactionNames
  apply (yields_allPredicates hs₂ htable htable').bind
  intro predicates s₃ hs₃ hle₃ hlisted
  refine (CodeTable.ensures_disjAll_cubes hs₃
    (hagents.mono (founded hs₂) hle₃)).yields.bind fun agentMutex s₄ hs₄ hle₄ hagentMutex => ?_
  refine (CodeTable.ensures_disjAll_cubes hs₄ (hreactions.mono (founded hs₂)
    (hle₃.trans hle₄))).yields.bind fun envMutex s₅ hs₅ hle₅ henvMutex => ?_
  have hle : s₂ ≤ s₅ := (hle₃.trans hle₄).trans hle₅
  exact yields_pure hs₅
    { agents := htable.mono (founded hs₂) hle
      reactions := htable'.mono (founded hs₂) hle
      listed := hlisted.mono (founded hs₃) (hle₄.trans hle₅)
      agentMutex := hagentMutex.mono (founded hs₄) hle₅
      envMutex := henvMutex }

end Players

section Bits

/-- A bit of the state of an encoding. -/
inductive Bit
  | fluent (i : Nat)
  | envError
  | agentError

/-- The bit `agent_err`, if there is one. -/
def Bit.errors : AgentErrorMode → List Bit
  | .invariant => []
  | .errorBit => [.agentError]

/-- The bits in their order. -/
def Bit.all (domain : Domain) (mode : AgentErrorMode) : List Bit :=
  (List.range domain.fluents.length).map .fluent ++ [.envError] ++ Bit.errors mode

/-- Whether a bit is set after the given names were chosen in a state. -/
def Bit.Next (domain : Domain) (s : List Bool) (name reaction : Option String) : Bit → Prop
  | .fluent i =>
    (s[i]? = some true ∧
      ¬ ∃ action ∈ domain.actionList, action.deletes.contains i = true ∧
        Selected name reaction action) ∨
    ∃ action ∈ domain.actionList, action.adds.contains i = true ∧ Selected name reaction action
  | .envError =>
    s[domain.fluents.length]? = some true ∨
      ¬ ∃ action ∈ domain.actionList, Selected name reaction action
  | .agentError =>
    s[domain.fluents.length + 1]? = some true ∨
      ¬ ∃ chosen, name = some chosen ∧ domain.Applicable chosen s

variable [Store.Soundness sound]

theorem yields_nextEnvError (hm : StandsIn sound registry manager) (hid : Owns registry id vars)
    {place : Nat} {envMutex envPrecondition : Edge}
    (hmutex : manager.store.Denotes envMutex fun a => (answer a).isSome = true)
    (hprecondition : manager.store.Denotes envPrecondition fun a => ∀ reaction,
      answer a = some reaction → ∃ action ∈ actions, Selected (choice a) (answer a) action) :
    YieldsIn sound registry (nextEnvError id place envMutex envPrecondition) manager
      fun e later => later.store.Denotes e fun a => (vars.map a)[place]? = some true ∨
        ¬ ∃ action ∈ actions, Selected (choice a) (answer a) action := by
  unfold nextEnvError
  refine (yields_stateBit hm hid place).bind fun bit m₁ hm₁ hle₁ ⟨_, hbit⟩ => ?_
  have hmutex := (hmutex.mono (founded hm.sound) hle₁.1).neg (founded hm₁.sound)
  have hprecondition := (hprecondition.mono (founded hm.sound) hle₁.1).neg (founded hm₁.sound)
  apply (yields_lift hm₁ (Diagram.ensures_disj hm₁.sound hmutex hprecondition).yields).bind
  intro violation m₂ hm₂ hle₂ hviolation
  have hbit := hbit.mono (founded hm₁.sound) hle₂.1
  refine (yields_lift hm₂ (Diagram.ensures_disj hm₂.sound hbit hviolation).yields).weaken
    fun e later _ _ he => he.congr fun a => or_congr_right ?_
  rw [← not_and_or]
  refine not_congr ⟨fun ⟨hsome, hall⟩ => ?_, fun ⟨action, hmem, hselected⟩ => ?_⟩
  · obtain ⟨reaction, hreaction⟩ := Option.isSome_iff_exists.1 hsome
    exact hall reaction hreaction
  · exact ⟨Option.isSome_iff_exists.2 ⟨_, hselected.2⟩, fun _ _ => ⟨action, hmem, hselected⟩⟩

theorem yields_nextAgentError (hm : StandsIn sound registry manager) (hid : Owns registry id vars)
    {place : Nat} {agentOk : Edge} {P : Valuation → Prop} (Q : Bit → Valuation → Prop)
    (hagentOk : manager.store.Denotes agentOk P)
    (hQ : ∀ a, Q .agentError a ↔ (vars.map a)[place]? = some true ∨ ¬ P a)
    (mode : AgentErrorMode) :
    YieldsIn sound registry (nextAgentError id place agentOk mode) manager fun edges later =>
      later.store.DenotesEach Q (Bit.errors mode) edges := by
  cases mode with
  | invariant => exact yields_pure hm .nil
  | errorBit =>
    unfold nextAgentError
    refine (yields_stateBit hm hid place).bind fun bit m₁ hm₁ hle₁ ⟨_, hbit⟩ => ?_
    have hagentOk := (hagentOk.mono (founded hm.sound) hle₁.1).neg (founded hm₁.sound)
    apply (yields_lift hm₁ (Diagram.ensures_disj hm₁.sound hbit hagentOk).yields).bind
    intro e m₂ hm₂ hle₂ he
    exact yields_pure hm₂ (.cons (he.congr fun a => (hQ a).symm) .nil)

end Bits

section Variables

variable {before opened middle : Registry} {outputs inputs : List Var}

theorem length_codeNames (letter : String) (count : Nat) :
    (codeNames letter count).length = count := by
  simp [codeNames]

theorem codeNames_nodup (letter : String) (count : Nat) : (codeNames letter count).Nodup := by
  refine (List.nodup_range).map fun i j hij => ?_
  have hrepr : Nat.repr i = Nat.repr j := by simpa using hij
  exact Nat.repr_inj.1 hrepr

/-- The names of the variables of the two players differ. -/
theorem not_mem_codeNames {n m : Nat} {name : String} (h : name ∈ codeNames "r" n) :
    name ∉ codeNames "a" m := by
  unfold codeNames at h ⊢
  simp only [List.mem_map, List.mem_range, not_exists, not_and] at h ⊢
  obtain ⟨i, -, rfl⟩ := h
  intro j _ heq
  have hfirst := congrArg (·.toList.head?) heq
  simp only [String.toList_append, List.head?_append] at hfirst
  change some 'a' = some 'r' at hfirst
  exact absurd hfirst (by decide)

/-- The variables of an encoding are different, and there are enough for all codes. The state bits
are found under their names. -/
structure Placed (registry : Registry) (domain : Domain) (mode : AgentErrorMode) (id : BlockId)
    (vars outputs inputs : List Var) : Prop where
  block : registry.block? id = some ⟨vars, (stateNames domain mode).zipIdx⟩
  owns : Owns registry id vars
  declares : ∀ v ∈ vars ++ (inputs ++ outputs), ∃ d, registry.Declares d v ∧
    (d.role = .state id ∨ d.role = .input ∨ d.role = .output)
  nodup : (vars ++ (inputs ++ outputs)).Nodup
  outputs_fit : CodeTable.Fits (agentNamesOf domain) outputs
  inputs_fit : CodeTable.Fits (reactionNamesOf domain) inputs

theorem Placed.mono {registry' : Registry} (h : Placed registry domain mode id vars outputs inputs)
    (hle : registry ≤ registry') : Placed registry' domain mode id vars outputs inputs := by
  have hblock := hle.2 _ _ h.block
  exact { h with
    block := hblock
    owns := { h.owns with block := ⟨_, hblock⟩ }
    declares := fun v hv => (h.declares v hv).imp fun _ hd => ⟨hd.1.mono hle, hd.2⟩ }

/-- There are numbers for all variables, and zero is none of them. -/
theorem Placed.length_lt (h : Placed registry domain mode id vars outputs inputs) :
    vars.length + (inputs.length + outputs.length) < UInt32.size := by
  have hzero : (0 : Var) ∉ vars ++ (inputs ++ outputs) := by
    simp only [List.mem_append, not_or]
    exact ⟨fun hv => h.owns.ne_zero 0 hv rfl, fun hv => h.inputs_fit.ne_zero 0 hv rfl,
      fun hv => h.outputs_fit.ne_zero 0 hv rfl⟩
  have hnodup := (List.nodup_cons.2 ⟨hzero, h.nodup⟩).map fun a b h => UInt32.toFin_inj.1 h
  simpa using hnodup.length_le_card

section Claimed

variable
  (hopens : before.Opens (stateNames domain mode) (stateNames domain mode).zipIdx id vars opened)
  (houtputs : opened.Claims .output (codeNames "a" (CodeTable.bits (agentNamesOf domain))) outputs
    middle)
  (hinputs : middle.Claims .input (codeNames "r" (CodeTable.bits (reactionNamesOf domain))) inputs
    registry)
include hopens houtputs hinputs

/-- The variables are different as long as the numbers have not run out. -/
theorem placed_of_size_lt (hsize : registry.size < UInt32.size) :
    Placed registry domain mode id vars outputs inputs := by
  have houtputsLength := houtputs.length_eq.trans (length_codeNames _ _)
  have hinputsLength := hinputs.length_eq.trans (length_codeNames _ _)
  have hgrows : opened ≤ registry := houtputs.grows.trans hinputs.grows
  have hstates := hopens.declares.imp fun _ _ h => h.mono hgrows
  have houts := houtputs.declares.imp fun _ _ h => h.mono hinputs.grows
  have hstateNames := Registry.nodup_map_declaration (.state id) hopens.nodup
  have houtputNames := Registry.nodup_map_declaration .output
    (codeNames_nodup "a" (CodeTable.bits (agentNamesOf domain)))
  have hinputNames := Registry.nodup_map_declaration .input
    (codeNames_nodup "r" (CodeTable.bits (reactionNamesOf domain)))
  have hall := List.rel_append hstates (List.rel_append hinputs.declares houts)
  have hblock := hgrows.2 _ _ hopens.block
  refine ⟨hblock, ?_, fun v hv => ?_, ?_, ?_, ?_⟩
  · exact ⟨⟨_, hblock⟩, Registry.nodup_of_declares hsize hstates hstateNames,
      Registry.forall_ne_zero_of_declares hsize hstates⟩
  · obtain ⟨d, hd, hdeclares⟩ := Registry.exists_declares_of_mem hall hv
    refine ⟨d, hdeclares, ?_⟩
    simp only [List.mem_append, List.mem_map] at hd
    obtain ⟨_, _, rfl⟩ | ⟨_, _, rfl⟩ | ⟨_, _, rfl⟩ := hd <;> simp
  · refine Registry.nodup_of_declares hsize hall ?_
    have hinputOutput := Registry.disjoint_map_declaration (show Role.input ≠ .output by simp)
    have hstateInput := Registry.disjoint_map_declaration (show Role.state id ≠ .input by simp)
    have hstateOutput := Registry.disjoint_map_declaration (show Role.state id ≠ .output by simp)
    apply hstateNames.append (hinputNames.append houtputNames (hinputOutput _ _))
    exact List.disjoint_append_right.2 ⟨hstateInput _ _, hstateOutput _ _⟩
  · exact ⟨CodeTable.sortedNames_nodup _, Registry.nodup_of_declares hsize houts houtputNames,
      Registry.forall_ne_zero_of_declares hsize houts, houtputsLength⟩
  · exact ⟨CodeTable.sortedNames_nodup _,
      Registry.nodup_of_declares hsize hinputs.declares hinputNames,
      Registry.forall_ne_zero_of_declares hsize hinputs.declares, hinputsLength⟩

/-- The numbers have not run out if none of the variables that are used is zero. -/
theorem placed_of_claims (hbefore : before.size < UInt32.size)
    (hnumbered : Numbered domain mode vars outputs inputs) :
    Placed registry domain mode id vars outputs inputs := by
  have hlength := hopens.declares.length_eq.symm
  rw [List.length_map] at hlength
  have houtputsLength := houtputs.length_eq.trans (length_codeNames _ _)
  have hinputsLength := hinputs.length_eq.trans (length_codeNames _ _)
  apply placed_of_size_lt hopens houtputs hinputs
  apply hinputs.size_lt _ (ne_zero_of_names hnumbered.inputs hinputsLength)
  apply houtputs.size_lt _ (ne_zero_of_names hnumbered.outputs houtputsLength)
  exact hopens.size_lt hbefore (hnumbered.vars_ne_zero hlength)

end Claimed

end Variables

section Automaton

variable [Store.Soundness sound]

/-- No illegal choice of the agent was made before this state, which is known from the choice
in it or from the bit that remembers. -/
def Safe (domain : Domain) (initial s : List Bool) (name : Option String) : AgentErrorMode → Prop
  | .invariant => (∃ chosen, name = some chosen ∧ domain.Applicable chosen s) ∨ s = initial
  | .errorBit => ¬ s[domain.fluents.length + 1]? = some true

theorem yields_safety (hm : StandsIn sound registry manager) {automaton : Automaton}
    {agentOk : Edge} (hid : Owns registry automaton.block vars)
    (hagentOk : manager.store.Denotes agentOk fun a =>
      ∃ chosen, choice a = some chosen ∧ domain.Applicable chosen (vars.map a))
    (mode : AgentErrorMode) :
    YieldsIn sound registry (safety domain mode automaton agentOk) manager fun e later =>
      later.store.Denotes e fun a =>
        Safe domain automaton.initial (vars.map a) (choice a) mode := by
  cases mode with
  | invariant =>
    apply (yields_stateCube hm hid automaton.initial).bind
    intro cube m₁ hm₁ hle₁ hcube
    have hagentOk := hagentOk.mono (founded hm.sound) hle₁.1
    exact yields_lift hm₁ (Diagram.ensures_disj hm₁.sound hagentOk hcube).yields
  | errorBit =>
    refine (yields_stateBit hm hid _).bind fun bit m₁ hm₁ _ ⟨_, hbit⟩ => ?_
    exact yields_pure hm₁ (hbit.neg (founded hm₁.sound))

theorem yields_playable (hm : StandsIn sound registry manager) {automaton : Automaton}
    {agentOk : Edge} (hid : Owns registry automaton.block vars)
    (hagentOk : manager.store.Denotes agentOk fun a =>
      ∃ chosen, choice a = some chosen ∧ domain.Applicable chosen (vars.map a))
    (mode : AgentErrorMode) :
    YieldsIn sound registry (playable domain mode automaton agentOk) manager fun e later =>
      later.store.Denotes e fun a => domain.Admits (vars.map a) ∧
        Safe domain automaton.initial (vars.map a) (choice a) mode := by
  rw [playable_eq]
  apply (yields_invariantsEdge hid hm domain).bind
  intro invariants m₁ hm₁ hle₁ hinvariants
  have hagentOk := hagentOk.mono (founded hm.sound) hle₁.1
  apply (yields_safety hm₁ hid hagentOk mode).bind
  intro safe m₂ hm₂ hle₂ hsafe
  have hinvariants := hinvariants.mono (founded hm₁.sound) hle₂.1
  exact yields_lift hm₂ (Diagram.ensures_conj hm₂.sound hinvariants hsafe).yields

end Automaton

/-- The action that is named on the outputs. -/
def action (encoding : Encoding) : Valuation → Option String :=
  CodeTable.chosen encoding.agentNames encoding.automaton.outputs

/-- The reaction that is named on the inputs. -/
def reaction (encoding : Encoding) : Valuation → Option String :=
  CodeTable.chosen encoding.reactionNames encoding.automaton.inputs

/-- The state bits of a domain in its initial state. -/
def initialState (domain : Domain) (mode : AgentErrorMode) : List Bool :=
  domain.initial ++
    List.replicate ((stateNames domain mode).length - domain.fluents.length) false

/-- The diagrams of an encoding are those of the conditions of a domain. -/
structure Faithful (registry : Registry) (store : Store) (domain : Domain) (mode : AgentErrorMode)
    (encoding : Encoding) : Prop where
  domain_eq : encoding.domain = domain
  mode_eq : encoding.mode = mode
  initial_eq : encoding.automaton.initial = initialState domain mode
  agentNames_eq : encoding.agentNames = agentNamesOf domain
  reactionNames_eq : encoding.reactionNames = reactionNamesOf domain
  outputs_eq : encoding.outputs = encoding.automaton.outputs
  inputs_eq : encoding.inputs = encoding.automaton.inputs
  placed : Placed registry domain mode encoding.automaton.block encoding.automaton.stateVars
    encoding.automaton.outputs encoding.automaton.inputs
  initial_length : encoding.automaton.initial.length = encoding.automaton.stateVars.length
  next_length : encoding.automaton.next.length = encoding.automaton.stateVars.length
  next : store.DenotesEach (fun bit a => bit.Next domain (encoding.automaton.stateOf a)
    (encoding.action a) (encoding.reaction a)) (Bit.all domain mode) encoding.automaton.next
  finals : store.Denotes encoding.automaton.finals fun a =>
    domain.isGoal (encoding.automaton.stateOf a) = .ok true
  finals_ne_zero : encoding.automaton.finals ≠ .zero
  invariant : store.Denotes encoding.invariant fun a =>
    domain.Admits (encoding.automaton.stateOf a) ∧
      Safe domain encoding.automaton.initial (encoding.automaton.stateOf a) (encoding.action a) mode
  agentMutex : store.Denotes encoding.agentMutex fun a => (encoding.action a).isSome = true
  agentPrecondition : store.Denotes encoding.agentPrecondition fun a =>
    ∀ chosen, encoding.action a = some chosen →
      domain.Applicable chosen (encoding.automaton.stateOf a)
  envMutex : store.Denotes encoding.envMutex fun a => (encoding.reaction a).isSome = true
  envPrecondition : store.Denotes encoding.envPrecondition fun a =>
    ∀ answer, encoding.reaction a = some answer →
      ∃ action ∈ domain.actionList, Selected (encoding.action a) (encoding.reaction a) action
  predicates : List.Forall₂ (fun action entry => entry.1 = action.name ∧
      Shows store encoding.action encoding.reaction (action, entry.2))
    domain.actionList encoding.predicates

/-- An action that occurs in a pair is applicable if the conditions of its first pair hold. -/
theorem applicable_iff {name : String} {s : List Bool}
    (hname : ∃ action ∈ domain.actionList, action.agent = name) :
    (∀ action, domain.actionList.find? (·.agent = name) = some action → action.Permits s) ↔
      domain.Applicable name s := by
  obtain ⟨action, hmem, hagent⟩ := hname
  have hsome : (domain.actionList.find? (·.agent = name)).isSome = true :=
    List.find?_isSome.2 ⟨action, hmem, by simpa using hagent⟩
  obtain ⟨first, hfirst⟩ := Option.isSome_iff_exists.1 hsome
  unfold Domain.Applicable
  rw [hfirst]
  simp

theorem exists_agent_of_chosen {vars : List Var} {f : Action → String}
    {a : Valuation} {name : String}
    (h : CodeTable.chosen (CodeTable.sortedNames (actions.map f)) vars a = some name) :
    ∃ action ∈ actions, f action = name :=
  List.mem_map.1 (CodeTable.mem_sortedNames_iff.1 (CodeTable.mem_of_chosen h))

theorem mem_zip_named {predicates : List PairPredicates} {action : Action}
    {entry : String × PairPredicates}
    (h : (action, entry) ∈ actions.zip ((actions.map (·.name)).zip predicates)) :
    entry.1 = action.name ∧ (action, entry.2) ∈ actions.zip predicates := by
  induction actions generalizing predicates with
  | nil => exact absurd h (by simp)
  | cons first rest ih =>
    cases predicates with
    | nil => exact absurd h (by simp)
    | cons pair predicates =>
      rw [List.map_cons, List.zip_cons_cons, List.zip_cons_cons, List.mem_cons] at h
      rw [List.zip_cons_cons, List.mem_cons]
      rcases h with heq | hrest
      · obtain ⟨rfl, rfl⟩ := Prod.mk.inj heq
        exact ⟨rfl, .inl rfl⟩
      · exact ⟨(ih hrest).1, .inr (ih hrest).2⟩

/-- The predicates of the pairs, under the names of the pairs. -/
theorem Listed.named {store : Store} {predicates : List PairPredicates}
    (h : Listed store choice answer actions (actions.zip predicates)) :
    List.Forall₂ (fun action entry => entry.1 = action.name ∧
        Shows store choice answer (action, entry.2))
      actions ((actions.map (·.name)).zip predicates) := by
  have hlength : actions.length ≤ predicates.length := by
    have := congrArg List.length h.actions_eq
    rw [List.length_map, List.length_zip] at this
    omega
  refine List.forall₂_iff_zip.2 ⟨by simp [hlength], fun {action entry} hentry => ?_⟩
  obtain ⟨hname, hmem⟩ := mem_zip_named hentry
  exact ⟨hname, h.shows_mem _ hmem⟩

theorem forall_and_isSome_iff {name : Option String} {P : String → Prop} :
    ((∀ chosen, name = some chosen → P chosen) ∧ name.isSome = true) ↔
      ∃ chosen, name = some chosen ∧ P chosen := by
  cases name <;> simp

section Encode

variable [Store.Soundness sound]

/-- An action that is chosen is applicable. -/
theorem yields_agentPrecondition (hm : StandsIn sound registry manager)
    (hid : Owns registry id vars) {agents : CodeTable} {outputs : List Var}
    (hagents : Tabled manager.store (CodeTable.chosen (agentNamesOf domain) outputs) agents
      (domain.actionList.map (·.agent)))
    (hdisjoint : strict sound → ∀ action ∈ domain.actionList, ∀ i ∈ action.required,
      i ∉ action.forbidden) :
    YieldsIn sound registry (applicable id agents [] .one domain.actionList) manager fun e later =>
      later.store.Denotes e fun a => ∀ name,
        CodeTable.chosen (agentNamesOf domain) outputs a = some name →
          domain.Applicable name (vars.map a) := by
  refine (yields_applicable hid hm (founded hm.sound).denotes_one hagents hdisjoint).weaken
    fun e later _ _ he => he.congr fun a => ?_
  rw [true_and]
  refine forall_congr' fun name => ?_
  rw [forall_prop_of_true List.not_mem_nil]
  exact forall_congr' fun hname => applicable_iff (exists_agent_of_chosen hname)

/-- Neither the goal nor the conditions of a pair ask for a fluent both ways. -/
structure Consistent (domain : Domain) : Prop where
  goal : ∀ i ∈ domain.goal, i ∉ domain.goalForbidden
  actions : ∀ action ∈ domain.actionList, ∀ i ∈ action.required, i ∉ action.forbidden

theorem yields_encode (hm : StandsIn sound registry manager) {outputs inputs : List Var}
    (hplaced : Placed registry domain mode id vars outputs inputs)
    (hdomain : strict sound → Consistent domain) :
    YieldsIn sound registry (encode domain mode id outputs inputs) manager fun encoding later =>
      Faithful registry later.store domain mode encoding := by
  have hid := hplaced.owns
  unfold encode
  dsimp only
  apply (yields_lift hm (yields_selection hm.sound hplaced.outputs_fit hplaced.inputs_fit)).bind
  intro selection m₅ hm₅ hle₅ hselects
  apply (yields_mapM hm₅ (fun i e now later hnow hle he => he.mono (founded hnow.sound) hle.1)
    fun i _ now hnow hle => yields_nextFluent hnow hid
      (hselects.listed.mono (founded hm₅.sound) hle.1) i).bind
  intro fluents m₆ hm₆ hle₆ hfluents
  have hselects₆ := hselects.mono (founded hm₅.sound) hle₆.1
  apply (yields_lift hm₆ (yields_reactionLegal hm₆.sound hselects₆.listed hselects₆.reactions
    fun a r hr => exists_agent_of_chosen hr)).bind
  intro envPrecondition m₇ hm₇ hle₇ henv
  have hselects₇ := hselects₆.mono (founded hm₆.sound) hle₇.1
  apply (yields_agentPrecondition hm₇ hid hselects₇.agents fun h => (hdomain h).actions).bind
  intro agentPrecondition m₈ hm₈ hle₈ hagent
  have hselects₈ := hselects₇.mono (founded hm₇.sound) hle₈.1
  apply (yields_nextEnvError hm₈ hid hselects₈.envMutex
    (henv.mono (founded hm₇.sound) hle₈.1)).bind
  intro envError m₉ hm₉ hle₉ henvError
  have hselects₉ := hselects₈.mono (founded hm₈.sound) hle₉.1
  have hagent := hagent.mono (founded hm₈.sound) hle₉.1
  apply (yields_lift hm₉ (Diagram.ensures_conj hm₉.sound hagent
    hselects₉.agentMutex).yields).bind
  intro agentOk m₁₀ hm₁₀ hle₁₀ hagentOk
  have hagentOk := hagentOk.congr fun a => forall_and_isSome_iff
  apply (yields_nextAgentError hm₁₀ hid (fun bit a => bit.Next domain (vars.map a)
    (CodeTable.chosen (agentNamesOf domain) outputs a)
    (CodeTable.chosen (reactionNamesOf domain) inputs a)) hagentOk (fun _ => Iff.rfl) mode).bind
  intro agentError m₁₁ hm₁₁ hle₁₁ hagentError
  refine (yields_goalCube hid hm₁₁ fun h => (hdomain h).goal).bind
    fun finals m₁₂ hm₁₂ hle₁₂ ⟨hfinals, hfinalsZero⟩ => ?_
  refine (Automaton.yields_create hm₁₂ hplaced.block _ _ _).bind
    fun automaton m₁₃ hm₁₃ hle₁₃ ⟨hautomaton, hinitial, hnext⟩ => ?_
  subst hautomaton
  dsimp only
  have hle₁₀' := (hle₁₁.trans hle₁₂).trans hle₁₃
  apply (yields_playable hm₁₃ hid (hagentOk.mono (founded hm₁₀.sound) hle₁₀'.1) mode).bind
  intro invariant m₁₄ hm₁₄ hle₁₄ hinvariant
  refine yields_note_bind hm₁₄ _ _ fun last hlast hle₁₅ => ?_
  have hle₁₄' := hle₁₄.trans hle₁₅
  have hle₉' := (hle₁₀.trans hle₁₀').trans hle₁₄'
  have hle₈' := hle₉.trans hle₉'
  have hle₆' := ((hle₇.trans hle₈).trans hle₈')
  refine yields_pure hlast {
    domain_eq := rfl
    mode_eq := rfl
    initial_eq := rfl
    agentNames_eq := rfl
    reactionNames_eq := rfl
    outputs_eq := rfl
    inputs_eq := rfl
    placed := hplaced
    initial_length := hinitial
    next_length := hnext
    next := ?_
    finals := hfinals.mono (founded hm₁₂.sound) (hle₁₃.trans hle₁₄').1
    finals_ne_zero := hfinalsZero
    invariant := hinvariant.mono (founded hm₁₄.sound) hle₁₅.1
    agentMutex := hselects₉.agentMutex.mono (founded hm₉.sound) hle₉'.1
    agentPrecondition := hagent.mono (founded hm₉.sound) hle₉'.1
    envMutex := hselects₉.envMutex.mono (founded hm₉.sound) hle₉'.1
    envPrecondition := henv.mono (founded hm₇.sound) (hle₈.trans hle₈').1
    predicates := (hselects₉.listed.mono (founded hm₉.sound) hle₉'.1).named }
  refine List.rel_append (List.rel_append ?_ (.cons ?_ .nil)) ?_
  · exact List.forall₂_map_left_iff.2 (hfluents.imp fun i e he =>
      he.mono (founded hm₆.sound) hle₆'.1)
  · exact henvError.mono (founded hm₉.sound) hle₉'.1
  · exact hagentError.mono (founded hm₁₁.sound) ((hle₁₂.trans hle₁₃).trans hle₁₄').1

/-- A manager that has not run out of numbers places the variables of a domain before it encodes the
domain over them. -/
theorem yields_ofDomain_of_encode {sound : Store → Prop} [Store.Silent sound]
    {post : Encoding → Manager → Prop} (hs : sound manager.store)
    (hsize : manager.registry.size < UInt32.size)
    (hencode : ∀ (registry : Registry) (m : Manager) (id : BlockId)
      (vars outputs inputs : List Var), StandsIn sound registry m →
        Placed registry domain mode id vars outputs inputs →
          YieldsIn sound registry (encode domain mode id outputs inputs) m post) :
    PlanningGame.Yields (fun m : Manager => sound m.store) (ofDomain domain mode) manager post := by
  unfold ofDomain
  dsimp only
  refine (yields_newNamedStateVars hs _).bind fun id m₁ hs₁ _ hopened => ?_
  obtain ⟨vars, hopens⟩ := Registry.opens_newNamedBlock hopened
  apply (yields_claimVars hs₁ .output _).bind
  intro outputs m₂ hs₂ _ houtputs
  have houtputs := Registry.claims_claimAll houtputs
  apply (yields_claimVars hs₂ .input _).bind
  intro inputs m₃ hs₃ _ hinputs
  have hinputs := Registry.claims_claimAll hinputs
  have hm₃ : StandsIn sound m₃.registry m₃ := ⟨hs₃, rfl⟩
  suffices key : YieldsIn sound m₃.registry _ m₃ post from
    yields_of_stands key fun _ _ _ _ h => h
  refine yields_note_bind hm₃ _ _ fun m₄ hm₄ _ => ?_
  intro encoding later hrun
  have hblock := (houtputs.grows.trans hinputs.grows).2 _ _ hopens.block
  have hnumbered := numbered_of_run hblock hm₄.registry_eq hrun
  have hplaced := placed_of_claims hopens houtputs hinputs hsize hnumbered
  exact hencode _ m₄ id vars outputs inputs hm₄ hplaced encoding later hrun

/-- An encoding says what the domain says, whatever the order of the variables in its diagrams, and
whatever the domain asks for. -/
theorem yieldsIn_ofDomain (hs : sound manager.store)
    (hsize : manager.registry.size < UInt32.size) (hdomain : strict sound → Consistent domain) :
    PlanningGame.Yields (fun m : Manager => sound m.store) (ofDomain domain mode) manager
      fun encoding later => Faithful later.registry later.store domain mode encoding :=
  yields_ofDomain_of_encode hs hsize fun _ _ _ _ _ _ hm hplaced =>
    (yields_encode hm hplaced hdomain).weaken fun _ _ hlater _ hfaithful =>
      hlater.registry_eq ▸ hfaithful

end Encode

/-- With ordered variables, and if nothing is asked for both ways, all diagrams stay ordered. -/
theorem yields_ofDomain (hs : manager.store.Sound) (hsize : manager.registry.size < UInt32.size)
    (hdomain : Consistent domain) :
    PlanningGame.Yields (fun m : Manager => m.store.Sound) (ofDomain domain mode) manager
      fun encoding later => Faithful later.registry later.store domain mode encoding :=
  yieldsIn_ofDomain hs hsize fun _ => hdomain

end PlanningGame.Encoding
