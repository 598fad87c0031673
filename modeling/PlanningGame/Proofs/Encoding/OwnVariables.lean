import Mathlib
import PlanningGame.Proofs.Diagram.Exposure
import PlanningGame.Proofs.Encoding.Assembly

/-!
# The diagrams of an encoding

All diagrams of an encoding have what literals and cubes of its variables have, if the connectives
keep it. So they test its state variables, its outputs and its inputs only, and all variables are
exposed in them. This holds whatever the domain asks for. If it asks for a fluent both ways then the
diagrams of its conditions are not ordered, and a variable may be tested although it does not
matter.
-/
namespace PlanningGame

/-- All diagrams of a table have the property. -/
def CodeTable.Every (P : Edge → Prop) (table : CodeTable) : Prop :=
  ∀ e ∈ table.cubes, P e

/-- All predicates of a pair have the property. -/
structure PairPredicates.Every (P : Edge → Prop) (pair : PairPredicates) : Prop where
  agent : P pair.agent
  reaction : P pair.reaction
  both : P pair.both

theorem PairPredicates.Every.imp {P Q : Edge → Prop} {pair : PairPredicates} (h : pair.Every P)
    (hPQ : ∀ e, P e → Q e) : pair.Every Q :=
  ⟨hPQ _ h.agent, hPQ _ h.reaction, hPQ _ h.both⟩

/-- All diagrams from which choices are read have the property. -/
structure Selection.Every (P : Edge → Prop) (selection : Selection) : Prop where
  agents : selection.agents.Every P
  reactions : selection.reactions.Every P
  predicates : ∀ pair ∈ selection.predicates, pair.Every P
  agentMutex : P selection.agentMutex
  envMutex : P selection.envMutex

theorem Selection.Every.imp {P Q : Edge → Prop} {selection : Selection} (h : selection.Every P)
    (hPQ : ∀ e, P e → Q e) : selection.Every Q :=
  ⟨fun e he => hPQ _ (h.agents e he), fun e he => hPQ _ (h.reactions e he),
    fun pair hpair => (h.predicates pair hpair).imp hPQ, hPQ _ h.agentMutex, hPQ _ h.envMutex⟩

namespace Encoding

open Manager

/-- All diagrams of an encoding have the property. -/
structure Every (P : Edge → Prop) (encoding : Encoding) : Prop where
  next : ∀ e ∈ encoding.automaton.next, P e
  finals : P encoding.automaton.finals
  invariant : P encoding.invariant
  agentMutex : P encoding.agentMutex
  envMutex : P encoding.envMutex
  agentPrecondition : P encoding.agentPrecondition
  envPrecondition : P encoding.envPrecondition
  predicates : ∀ p ∈ encoding.predicates, p.2.Every P

theorem Every.imp {P Q : Edge → Prop} {encoding : Encoding} (h : encoding.Every P)
    (hPQ : ∀ e, P e → Q e) : encoding.Every Q :=
  ⟨fun e he => hPQ _ (h.next e he), hPQ _ h.finals, hPQ _ h.invariant, hPQ _ h.agentMutex,
    hPQ _ h.envMutex, hPQ _ h.agentPrecondition, hPQ _ h.envPrecondition,
    fun p hp => (h.predicates p hp).imp hPQ⟩

/-- The diagrams of an encoding test the given variables only. -/
def OnVariables (store : Store) (own : Set Var) (encoding : Encoding) : Prop :=
  encoding.Every (store.Within own)

theorem OnVariables.mono {store later : Store} {own : Set Var} {encoding : Encoding}
    (h : OnVariables store own encoding) (hle : store ≤ later) : OnVariables later own encoding :=
  Every.imp h fun _ he => he.mono hle

/-- The condition for a legal choice of the agent has been worked out, with this answer. -/
def Permits (store : Store) (encoding : Encoding) (agentOk : Edge) : Prop :=
  store.Replays ⟨encoding.agentPrecondition, encoding.agentMutex, .zero⟩ agentOk

variable {registry : Registry} {manager : Manager} {store : Store} {id : BlockId}
  {vars : List Var} {own : Set Var} {domain : Domain} {mode : AgentErrorMode}
  {P : Store → Edge → Prop}

/-- What is known of each answer, whatever it was computed from, and goes on to hold. -/
theorem yields_mapM_all {σ α β : Type} [Preorder σ] {sound : σ → Prop} {s : σ}
    {f : α → ExceptT Failure (StateM σ) β} {P : β → σ → Prop} {l : List α} (hs : sound s)
    (hkeep : ∀ b now later, now ≤ later → P b now → P b later)
    (hf : ∀ a ∈ l, ∀ now, sound now → s ≤ now → PlanningGame.Yields sound (f a) now P) :
    PlanningGame.Yields sound (l.mapM f) s fun answers later => ∀ b ∈ answers, P b later := by
  have heach := yields_mapM hs (fun _ b now later _ hle => hkeep b now later hle) hf
  refine heach.weaken fun answers later _ _ h b hb => ?_
  obtain ⟨_, -, hP⟩ := Store.exists_of_forall₂ h b hb
  exact hP

/-- If the operation gives an answer then the answer has the property. -/
abbrev KeepsIn (registry : Registry) (P : Store → Edge → Prop) (op : ManagerM Edge)
    (manager : Manager) : Prop :=
  YieldsIn Store.Replayable registry op manager fun e later => P later.store e

section Lists

variable {α : Type} {l : List α} (hP : Diagram.Kept own P)
include hP

theorem keeps_mapM {f : α → DiagramM Edge} (hs : store.Replayable)
    (hf : ∀ a ∈ l, ∀ now : Store, now.Replayable → store ≤ now → Diagram.Keeps P (f a) now) :
    PlanningGame.Yields Store.Replayable (l.mapM f) store
      fun edges later => ∀ e ∈ edges, P later e :=
  yields_mapM_all (P := fun e later => P later e) hs (fun _ _ _ hle he => hP.mono he hle) hf

theorem keepsIn_mapM {f : α → ManagerM Edge} (hm : StandsIn Store.Replayable registry manager)
    (hf : ∀ a ∈ l, ∀ now, StandsIn Store.Replayable registry now → manager ≤ now →
      KeepsIn registry P (f a) now) :
    YieldsIn Store.Replayable registry (l.mapM f) manager
      fun edges later => ∀ e ∈ edges, P later.store e :=
  yields_mapM_all (P := fun e later => P later.store e) hm
    (fun _ _ _ hle he => hP.mono he hle.1) hf

end Lists

section States

variable (hP : Diagram.Kept own P) (hm : StandsIn Store.Replayable registry manager)
  (hid : Owns registry id vars) (hvars : ∀ v ∈ vars, v ∈ own)
include hP hm hid hvars

theorem keepsIn_stateBit (place : Nat) : KeepsIn registry P (stateBit id place) manager := by
  obtain ⟨labels, hblock⟩ := hid.block
  unfold stateBit
  refine yields_block_bind hm hblock ?_
  dsimp only
  cases hv : vars[place]? with
  | none => exact yields_throw _
  | some v => exact yields_lift hm (hP.literal hm.sound (hvars v (List.mem_of_getElem? hv)))

theorem keepsIn_stateCube (state : List Bool) :
    KeepsIn registry P (stateCube id state) manager := by
  obtain ⟨labels, hblock⟩ := hid.block
  unfold stateCube
  refine yields_block_bind hm hblock ?_
  dsimp only
  split
  · exact yields_lift hm (Diagram.keeps_assignmentCube hP hm.sound hvars state)
  · exact yields_throw _

theorem keepsIn_fluentCube (holding failing : FluentSet) :
    KeepsIn registry P (fluentCube id holding failing) manager := by
  have hliterals : ∀ {places : List Nat} {value : Bool}, (∀ i ∈ places, i < vars.length) →
      ∀ l ∈ places.map fun i => signedLiteral (vars.getD i 0) value,
        ∃ v ∈ own, ∃ value, l = signedLiteral v value := by
    intro places value hlt
    rw [List.forall_mem_map]
    intro i hi
    refine ⟨vars.getD i 0, ?_, value, rfl⟩
    rw [List.getD_eq_getElem _ _ (hlt i hi)]
    exact hvars _ (List.getElem_mem _)
  unfold fluentCube
  refine (yields_stateLiterals hm hid true _).bind fun positive m₁ hm₁ _ ⟨hpos, hpositive⟩ => ?_
  refine (yields_stateLiterals hm₁ hid false _).bind
    fun negative m₂ hm₂ _ ⟨hneg, hnegative⟩ => ?_
  refine yields_lift hm₂ (hP.cube hm₂.sound ?_)
  rw [hpositive, hnegative]
  exact List.forall_mem_append.2 ⟨hliterals hpos, hliterals hneg⟩

end States

section Pairs

variable {agents reactions table : CodeTable} {pairs : List (Action × PairPredicates)}
  (hP : Diagram.Kept own P)
include hP

/-- A name that is not in the table has the cube that is never met. -/
theorem every_cube (h : table.Every (P store)) (name : String) : P store (table.cube name) := by
  unfold CodeTable.cube
  cases hlookup : (table.names.zip table.cubes).lookup name with
  | none => exact hP.terminal rfl
  | some e =>
    obtain ⟨before, after, hsplit, -⟩ := List.lookup_eq_some_iff.1 hlookup
    have hmem : (name, e) ∈ table.names.zip table.cubes := by simp [hsplit]
    exact h e (List.of_mem_zip hmem).2

theorem yields_create_every (hs : store.Replayable) (names : List String) {places : List Var}
    (hplaces : ∀ v ∈ places, v ∈ own) :
    PlanningGame.Yields Store.Replayable (CodeTable.create names places) store
      fun table later => table.Every (P later) := by
  unfold CodeTable.create
  refine (keeps_mapM hP hs fun i _ now hnow _ =>
    Diagram.keeps_assignmentCube hP hnow hplaces _).bind fun cubes later hlater _ hcubes => ?_
  exact yields_pure hlater hcubes

theorem yields_allPredicates_every (hs : store.Replayable) (hagents : agents.Every (P store))
    (hreactions : reactions.Every (P store)) (actions : List Action) :
    PlanningGame.Yields Store.Replayable (allPredicates agents reactions actions) store
      fun predicates later => ∀ pair ∈ predicates, pair.Every (P later) := by
  refine yields_mapM_all hs (fun _ _ _ hle h => h.imp fun _ he => hP.mono he hle)
    fun action _ now hnow hle => ?_
  have hagent := hP.mono (every_cube hP hagents action.agent) hle
  have hreaction := hP.mono (every_cube hP hreactions action.reaction) hle
  refine Yields.bind (Diagram.keeps_conj hP hnow hagent hreaction)
    fun both later hlater hle' hboth => ?_
  exact yields_pure hlater ⟨hP.mono hagent hle', hP.mono hreaction hle', hboth⟩

theorem yields_selection_every (hs : store.Replayable) (actions : List Action)
    (agentNames reactionNames : List String) {outputs inputs : List Var}
    (houtputs : ∀ v ∈ outputs, v ∈ own) (hinputs : ∀ v ∈ inputs, v ∈ own) :
    PlanningGame.Yields Store.Replayable
      (selection actions agentNames reactionNames outputs inputs) store
      fun selection later => selection.Every (P later) := by
  unfold selection
  refine (yields_create_every hP hs agentNames houtputs).bind
    fun agents s₁ hs₁ hle₁ hagents => ?_
  refine (yields_create_every hP hs₁ reactionNames hinputs).bind
    fun reactions s₂ hs₂ hle₂ hreactions => ?_
  have hagents : agents.Every (P s₂) := fun e he => hP.mono (hagents e he) hle₂
  refine (yields_allPredicates_every hP hs₂ hagents hreactions actions).bind
    fun predicates s₃ hs₃ hle₃ hpredicates => ?_
  have hagents : agents.Every (P s₃) := fun e he => hP.mono (hagents e he) hle₃
  refine Yields.bind (Diagram.keeps_disjAll hP hs₃ hagents)
    fun agentMutex s₄ hs₄ hle₄ hagentMutex => ?_
  have hreactions : reactions.Every (P s₄) := fun e he =>
    hP.mono (hreactions e he) (hle₃.trans hle₄)
  refine Yields.bind (Diagram.keeps_disjAll hP hs₄ hreactions)
    fun envMutex s₅ hs₅ hle₅ henvMutex => ?_
  have hlater := hle₄.trans hle₅
  exact yields_pure hs₅
    { agents := fun e he => hP.mono (hagents e he) hlater
      reactions := fun e he => hP.mono (hreactions e he) hle₅
      predicates := fun pair hpair =>
        (hpredicates pair hpair).imp fun _ he => hP.mono he hlater
      agentMutex := hP.mono hagentMutex hle₅
      envMutex := henvMutex }

theorem keeps_someSelected (hs : store.Replayable) (hpairs : ∀ p ∈ pairs, p.2.Every (P store))
    (wanted : Action → Bool) : Diagram.Keeps P (someSelected pairs wanted) store := by
  refine Diagram.keeps_disjAll hP hs ?_
  rw [List.forall_mem_map]
  exact fun p hp => (hpairs p (List.mem_of_mem_filter hp)).both

theorem keepsIn_nextFluent (hm : StandsIn Store.Replayable registry manager)
    (hid : Owns registry id vars) (hvars : ∀ v ∈ vars, v ∈ own)
    (hpairs : ∀ p ∈ pairs, p.2.Every (P manager.store)) (fluent : Nat) :
    KeepsIn registry P (nextFluent id pairs fluent) manager := by
  unfold nextFluent
  refine (yields_lift hm (keeps_someSelected hP hm.sound hpairs _)).bind
    fun added m₁ hm₁ hle₁ hadded => ?_
  refine (yields_lift hm₁ (keeps_someSelected hP hm₁.sound
    (fun p hp => (hpairs p hp).imp fun _ he => hP.mono he hle₁.1) _)).bind
      fun deleted m₂ hm₂ hle₂ hdeleted => ?_
  refine Yields.bind (keepsIn_stateBit hP hm₂ hid hvars fluent) fun bit m₃ hm₃ hle₃ hbit => ?_
  refine (yields_lift hm₃ (Diagram.keeps_conj hP hm₃.sound hbit
    (hP.neg (hP.mono hdeleted hle₃.1)))).bind fun kept m₄ hm₄ hle₄ hkept => ?_
  have hadded := hP.mono hadded ((hle₂.trans hle₃).trans hle₄).1
  exact yields_lift hm₄ (Diagram.keeps_disj hP hm₄.sound hkept hadded)

theorem yields_legalAgents_every (hs : store.Replayable) {legal : Std.TreeMap String Edge}
    (hlegal : ∀ (reaction : String) (e : Edge), legal[reaction]? = some e → P store e)
    (hpairs : ∀ p ∈ pairs, p.2.Every (P store)) :
    PlanningGame.Yields Store.Replayable (legalAgents legal pairs) store fun legal later =>
      ∀ (reaction : String) (e : Edge), legal[reaction]? = some e → P later e := by
  induction pairs generalizing store legal with
  | nil => exact yields_pure hs hlegal
  | cons pair rest ih =>
    obtain ⟨action, predicates⟩ := pair
    obtain ⟨hpair, hrest⟩ := List.forall_mem_cons.1 hpairs
    have hold : P store (legal.getD action.reaction .zero) := by
      rw [Std.TreeMap.getD_eq_getD_getElem?]
      cases hfound : legal[action.reaction]? with
      | none => exact hP.terminal rfl
      | some e => exact hlegal action.reaction e hfound
    rw [legalAgents]
    refine Yields.bind (Diagram.keeps_disj hP hs hold hpair.agent)
      fun agents now hnow hle hagents => ?_
    refine ih hnow (fun reaction e he => ?_)
      fun p hp => (hrest p hp).imp fun _ he => hP.mono he hle
    rw [Std.TreeMap.getElem?_insert] at he
    split at he
    · exact Option.some.inj he ▸ hagents
    · exact hP.mono (hlegal reaction e he) hle

theorem keeps_reactionLegal (hs : store.Replayable) (hreactions : reactions.Every (P store))
    (hpairs : ∀ p ∈ pairs, p.2.Every (P store)) :
    Diagram.Keeps P (reactionLegal reactions pairs) store := by
  unfold reactionLegal
  refine (yields_legalAgents_every hP hs (by simp) hpairs).bind
    fun legal now hnow hle hlegal => ?_
  have himply : ∀ p ∈ legal.toList, ∀ m : Store, m.Replayable → now ≤ m →
      Diagram.Keeps P (Diagram.imply (reactions.cube p.1) p.2) m := by
    intro p hp m hm hle'
    have hagents := hlegal p.1 p.2 (Std.TreeMap.mem_toList_iff_getElem?_eq_some.1 hp)
    have hreaction := every_cube hP hreactions p.1
    exact Diagram.keeps_imply hP hm (hP.mono hreaction (hle.trans hle')) (hP.mono hagents hle')
  exact (keeps_mapM hP hnow himply).bind
    fun answers later hlater _ hanswers => Diagram.keeps_conjAll hP hlater hanswers

end Pairs

section Conditions

variable {agents : CodeTable} {edge : Edge} (hP : Diagram.Kept own P) (hid : Owns registry id vars)
  (hvars : ∀ v ∈ vars, v ∈ own)
include hP hid hvars

theorem keepsIn_applicable (hm : StandsIn Store.Replayable registry manager)
    (hagents : agents.Every (P manager.store)) (hedge : P manager.store edge)
    (seen : List String) (actions : List Action) :
    KeepsIn registry P (applicable id agents seen edge actions) manager := by
  induction actions generalizing manager seen edge with
  | nil => exact yields_pure hm hedge
  | cons action rest ih =>
    rw [applicable]
    split
    · exact ih hm hagents hedge seen
    refine Yields.bind (keepsIn_fluentCube hP hm hid hvars action.required action.forbidden)
      fun conditions m₁ hm₁ hle₁ hconditions => ?_
    have hagent := every_cube hP hagents action.agent
    refine (yields_lift hm₁ (Diagram.keeps_imply hP hm₁.sound (hP.mono hagent hle₁.1)
      hconditions)).bind fun permitted m₂ hm₂ hle₂ hpermitted => ?_
    have hle := hle₁.trans hle₂
    refine (yields_lift hm₂ (Diagram.keeps_conj hP hm₂.sound (hP.mono hedge hle.1)
      hpermitted)).bind fun both m₃ hm₃ hle₃ hboth => ?_
    exact ih hm₃ (fun e he => hP.mono (hagents e he) (hle.trans hle₃).1) hboth _

theorem keepsIn_nextEnvError (hm : StandsIn Store.Replayable registry manager)
    {envMutex envPrecondition : Edge} (hmutex : P manager.store envMutex)
    (hprecondition : P manager.store envPrecondition) (place : Nat) :
    KeepsIn registry P (nextEnvError id place envMutex envPrecondition) manager := by
  unfold nextEnvError
  refine Yields.bind (keepsIn_stateBit hP hm hid hvars place) fun bit m₁ hm₁ hle₁ hbit => ?_
  refine (yields_lift hm₁ (Diagram.keeps_disj hP hm₁.sound (hP.neg (hP.mono hmutex hle₁.1))
    (hP.neg (hP.mono hprecondition hle₁.1)))).bind fun violation m₂ hm₂ hle₂ hviolation => ?_
  exact yields_lift hm₂ (Diagram.keeps_disj hP hm₂.sound (hP.mono hbit hle₂.1) hviolation)

theorem yields_nextAgentError_every (hm : StandsIn Store.Replayable registry manager)
    {agentOk : Edge} (hagentOk : P manager.store agentOk) (place : Nat) (mode : AgentErrorMode) :
    YieldsIn Store.Replayable registry (nextAgentError id place agentOk mode) manager
      fun edges later => ∀ e ∈ edges, P later.store e := by
  cases mode with
  | invariant => exact yields_pure hm (by simp)
  | errorBit =>
    unfold nextAgentError
    refine Yields.bind (keepsIn_stateBit hP hm hid hvars place) fun bit m₁ hm₁ hle₁ hbit => ?_
    refine (yields_lift hm₁ (Diagram.keeps_disj hP hm₁.sound hbit
      (hP.neg (hP.mono hagentOk hle₁.1)))).bind fun e m₂ hm₂ _ he => ?_
    exact yields_pure hm₂ (List.forall_mem_singleton.2 he)

theorem keepsIn_excludes (hm : StandsIn Store.Replayable registry manager)
    (hedge : P manager.store edge) (fluent : Nat) (failing holding : List Nat) :
    KeepsIn registry P (excludes id edge fluent failing holding) manager := by
  have hneg : ∀ place ∈ failing, ∀ now, StandsIn Store.Replayable registry now → manager ≤ now →
      KeepsIn registry P (do return -(← stateBit id place)) now := fun place _ now hnow _ =>
    Yields.bind (keepsIn_stateBit hP hnow hid hvars place)
      fun e later hlater _ he => yields_pure hlater (hP.neg he)
  unfold excludes
  refine (keepsIn_mapM hP hm hneg).bind
    fun negative m₁ hm₁ hle₁ hnegative => ?_
  refine (keepsIn_mapM hP hm₁ fun place _ now hnow _ =>
    keepsIn_stateBit hP hnow hid hvars place).bind fun positive m₂ hm₂ hle₂ hpositive => ?_
  have hnegative := fun e he => hP.mono (hnegative e he) hle₂.1
  have hothers := List.forall_mem_append.2 ⟨hnegative, hpositive⟩
  refine (yields_lift hm₂ (Diagram.keeps_conjAll hP hm₂.sound hothers)).bind
    fun others m₃ hm₃ hle₃ hothers => ?_
  refine Yields.bind (keepsIn_stateBit hP hm₃ hid hvars fluent) fun bit m₄ hm₄ hle₄ hbit => ?_
  refine (yields_lift hm₄ (Diagram.keeps_imply hP hm₄.sound hbit
    (hP.mono hothers hle₄.1))).bind fun needed m₅ hm₅ hle₅ hneeded => ?_
  have hle := (((hle₁.trans hle₂).trans hle₃).trans hle₄).trans hle₅
  exact yields_lift hm₅ (Diagram.keeps_conj hP hm₅.sound (hP.mono hedge hle.1) hneeded)

theorem keepsIn_foldlM_excludes (hm : StandsIn Store.Replayable registry manager)
    (hedge : P manager.store edge) (fluents : List Nat) (failing holding : Nat → List Nat) :
    KeepsIn registry P (fluents.foldlM (fun edge fluent =>
      excludes id edge fluent (failing fluent) (holding fluent)) edge) manager := by
  induction fluents generalizing manager edge with
  | nil => exact yields_pure hm hedge
  | cons fluent rest ih =>
    rw [List.foldlM_cons]
    exact Yields.bind (keepsIn_excludes hP hid hvars hm hedge fluent _ _)
      fun _ _ hnow _ he => ih hnow he

theorem keepsIn_invariantEdge (hm : StandsIn Store.Replayable registry manager)
    (invariant : Invariant) : KeepsIn registry P (invariantEdge id invariant) manager := by
  unfold invariantEdge
  exact Yields.bind (keepsIn_foldlM_excludes hP hid hvars hm (hP.terminal rfl) _ _ fun _ => _)
    fun _ _ hnow _ he => keepsIn_foldlM_excludes hP hid hvars hnow he _ (fun _ => _) _

end Conditions

section Encode

theorem keepsIn_playable (hP : Diagram.Kept own P) {automaton : Automaton} {agentOk : Edge}
    (hm : StandsIn Store.Replayable registry manager) (hid : Owns registry automaton.block vars)
    (hvars : ∀ v ∈ vars, v ∈ own) (hagentOk : P manager.store agentOk) :
    KeepsIn registry P (playable domain mode automaton agentOk) manager := by
  unfold playable
  refine (keepsIn_mapM hP hm fun invariant _ now hnow _ =>
    keepsIn_invariantEdge hP hid hvars hnow invariant).bind fun edges m₁ hm₁ hle₁ hedges => ?_
  refine (yields_lift hm₁ (Diagram.keeps_conjAll hP hm₁.sound hedges)).bind
    fun invariants m₂ hm₂ hle₂ hinvariants => ?_
  have hsafety : KeepsIn registry P (safety domain mode automaton agentOk) m₂ := by
    unfold safety
    split
    · refine Yields.bind (keepsIn_stateCube hP hm₂ hid hvars automaton.initial)
        fun cube m₃ hm₃ hle₃ hcube => ?_
      have hagentOk := hP.mono hagentOk ((hle₁.trans hle₂).trans hle₃).1
      exact yields_lift hm₃ (Diagram.keeps_disj hP hm₃.sound hagentOk hcube)
    · exact Yields.bind (keepsIn_stateBit hP hm₂ hid hvars _)
        fun bit m₃ hm₃ _ hbit => yields_pure hm₃ (hP.neg hbit)
  refine Yields.bind hsafety fun safe m₃ hm₃ hle₃ hsafe => ?_
  exact yields_lift hm₃ (Diagram.keeps_conj hP hm₃.sound (hP.mono hinvariants hle₃.1) hsafe)

theorem yields_encode_every {outputs inputs : List Var}
    (hP : Diagram.Kept {v | v ∈ vars ++ (inputs ++ outputs)} P)
    (hm : StandsIn Store.Replayable registry manager)
    (hplaced : Placed registry domain mode id vars outputs inputs) :
    YieldsIn Store.Replayable registry (encode domain mode id outputs inputs) manager
      fun encoding later => encoding.Every (P later.store) ∧
        (∃ agentOk, encoding.Permits later.store agentOk) ∧
        encoding.automaton.vars = vars ++ (inputs ++ outputs) := by
  let own : Set Var := {v | v ∈ vars ++ (inputs ++ outputs)}
  have hid := hplaced.owns
  have hvars : ∀ v ∈ vars, v ∈ own := fun v hv => List.mem_append_left _ hv
  have hinputs : ∀ v ∈ inputs, v ∈ own := fun v hv =>
    List.mem_append_right _ (List.mem_append_left _ hv)
  have houtputs : ∀ v ∈ outputs, v ∈ own := fun v hv =>
    List.mem_append_right _ (List.mem_append_right _ hv)
  unfold encode
  dsimp only
  refine (yields_lift hm (yields_selection_every hP hm.sound domain.actionList
    (agentNamesOf domain) (reactionNamesOf domain) houtputs hinputs)).bind
      fun selection m₁ hm₁ hle₁ hselection => ?_
  have hpairs : ∀ p ∈ domain.actionList.zip selection.predicates, p.2.Every (P m₁.store) :=
    fun p hp => hselection.predicates p.2 (List.of_mem_zip hp).2
  refine (keepsIn_mapM hP hm₁ fun i _ now hnow hle =>
    keepsIn_nextFluent hP hnow hid hvars
      (fun p hp => (hpairs p hp).imp fun _ he => hP.mono he hle.1) i).bind
      fun fluents m₂ hm₂ hle₂ hfluents => ?_
  have hselection := hselection.imp fun _ he => hP.mono he hle₂.1
  refine (yields_lift hm₂ (keeps_reactionLegal hP hm₂.sound hselection.reactions
    fun p hp => (hpairs p hp).imp fun _ he => hP.mono he hle₂.1)).bind
      fun envPrecondition m₃ hm₃ hle₃ henv => ?_
  have hselection := hselection.imp fun _ he => hP.mono he hle₃.1
  refine Yields.bind (keepsIn_applicable hP hid hvars hm₃ hselection.agents (hP.terminal rfl) []
    domain.actionList) fun agentPrecondition m₄ hm₄ hle₄ hagent => ?_
  have hselection := hselection.imp fun _ he => hP.mono he hle₄.1
  have henv := hP.mono henv hle₄.1
  refine Yields.bind (keepsIn_nextEnvError hP hid hvars hm₄ hselection.envMutex henv _)
    fun envError m₅ hm₅ hle₅ henvError => ?_
  have hselection := hselection.imp fun _ he => hP.mono he hle₅.1
  have hagent := hP.mono hagent hle₅.1
  have hfounded := hm₅.sound.toFounded
  refine (yields_lift hm₅ (Diagram.yields_ite_replays hm₅.sound ⟨hP.has hagent hfounded,
    hP.has hselection.agentMutex hfounded, hfounded.has_zero⟩)).bind
      fun agentOk m₆ hm₆ hle₆ hpermits => ?_
  have hagentOk : P m₆.store agentOk := hP.replays hm₆.sound.toFounded
    ⟨hP.mono hagent hle₆.1, hP.mono hselection.agentMutex hle₆.1, hP.terminal rfl⟩ hpermits
  refine (yields_nextAgentError_every hP hid hvars hm₆ hagentOk _ mode).bind
    fun agentError m₇ hm₇ hle₇ hagentError => ?_
  refine Yields.bind (keepsIn_fluentCube hP hm₇ hid hvars domain.goal domain.goalForbidden)
    fun finals m₈ hm₈ hle₈ hfinals => ?_
  refine (Automaton.yields_create hm₈ hplaced.block _ _ _).bind
    fun automaton m₉ hm₉ hle₉ ⟨hautomaton, _, _⟩ => ?_
  subst hautomaton
  dsimp only
  have hle := (hle₇.trans hle₈).trans hle₉
  refine Yields.bind (keepsIn_playable hP hm₉ hid hvars (hP.mono hagentOk hle.1))
    fun invariant m₁₀ hm₁₀ hle₁₀ hinvariant => ?_
  refine yields_note_bind hm₁₀ _ _ fun last hlast hle₁₁ => ?_
  have hle₉' := hle₁₀.trans hle₁₁
  have hle₆' := hle.trans hle₉'
  have hle₅' := hle₆.trans hle₆'
  have hle₂' := ((hle₃.trans hle₄).trans hle₅).trans hle₅'
  refine yields_pure hlast ⟨?_, ⟨agentOk, hpermits.mono hle₆'.1⟩, rfl⟩
  refine
    { next := List.forall_mem_append.2
        ⟨List.forall_mem_append.2 ⟨fun e he => ?_, ?_⟩, fun e he => ?_⟩
      finals := hP.mono hfinals (hle₉.trans hle₉').1
      invariant := hP.mono hinvariant hle₁₁.1
      agentMutex := hP.mono hselection.agentMutex hle₅'.1
      envMutex := hP.mono hselection.envMutex hle₅'.1
      agentPrecondition := hP.mono hagent hle₅'.1
      envPrecondition := hP.mono henv (hle₅.trans hle₅').1
      predicates := fun p hp => ?_ }
  · exact hP.mono (hfluents e he) hle₂'.1
  · exact List.forall_mem_singleton.2 (hP.mono henvError hle₅'.1)
  · exact hP.mono (hagentError e he) ((hle₈.trans hle₉).trans hle₉').1
  · exact (hselection.predicates p.2 (List.of_mem_zip hp).2).imp fun _ he => hP.mono he hle₅'.1

/-- An encoding uses no variables but its own, whatever the domain asks for. -/
theorem yields_ofDomain_onVariables (hs : manager.store.Replayable)
    (hsize : manager.registry.size < UInt32.size) :
    PlanningGame.Yields (fun m : Manager => m.store.Replayable) (ofDomain domain mode) manager
      fun encoding later => OnVariables later.store {v | v ∈ encoding.automaton.vars} encoding :=
  yields_ofDomain_of_encode hs hsize fun _ _ _ _ _ _ hm hplaced =>
    (yields_encode_every (Diagram.kept_within _) hm hplaced).weaken
      fun _ _ _ _ ⟨hevery, _, hown⟩ => hown ▸ hevery

/-- All variables are exposed in the diagrams of an encoding. -/
theorem yields_ofDomain_exposes (hs : manager.store.Replayable)
    (hsize : manager.registry.size < UInt32.size) (exposed : Set Var) :
    PlanningGame.Yields (fun m : Manager => m.store.Replayable) (ofDomain domain mode) manager
      fun encoding later => encoding.Every (later.store.Exposes exposed 0) :=
  yields_ofDomain_of_encode hs hsize fun _ _ _ _ _ _ hm hplaced =>
    (yields_encode_every (Diagram.kept_exposes _ exposed) hm hplaced).weaken
      fun _ _ _ _ h => h.1

/-- The condition for a legal choice of the agent is worked out when a domain is encoded. -/
theorem yields_ofDomain_permits (hs : manager.store.Replayable)
    (hsize : manager.registry.size < UInt32.size) :
    PlanningGame.Yields (fun m : Manager => m.store.Replayable) (ofDomain domain mode) manager
      fun encoding later => ∃ agentOk, encoding.Permits later.store agentOk :=
  yields_ofDomain_of_encode hs hsize fun _ _ _ _ _ _ hm hplaced =>
    (yields_encode_every (Diagram.kept_within _) hm hplaced).weaken fun _ _ _ _ h => h.2.1

end Encode

end Encoding

end PlanningGame
