import Mathlib
import PlanningGame.Proofs.Encoding.Conditions
import PlanningGame.Proofs.Game.Lockstep

/-!
# Compilation and solving in lockstep

Two managers with one registry may hold different diagrams. A domain is then compiled in both alike:
over the same variables, to encodings whose diagrams are copies, or with the same failure. What is
solved for such encodings, at any time, is again solved alike. So what else a manager holds cannot
be seen in any result.
-/
namespace PlanningGame

namespace Manager

open Diagram

/-- Both managers have the same registry, and the first has all nodes of the second. -/
structure Paired (m n : Manager) : Prop where
  store : m.store.Paired n.store
  registry_eq : n.registry = m.registry

variable {α α' β β' : Type} {m n : Manager} {id : BlockId}

theorem paired_self (h : m.store.Replayable) (hroom : HasRoom m.store) : Paired m m :=
  ⟨h.paired hroom, rfl⟩

/-- The operations end alike when they are run in the two managers. -/
abbrev PacedWith (op : ManagerM α) (op' : ManagerM α') (m n : Manager)
    (post : α → α' → Manager → Manager → Prop) : Prop :=
  Lockstep Paired (HasRoom ·.store) op op' m n post

/-- What is said of the answers depends on the stores only. -/
abbrev Paced (op : ManagerM α) (op' : ManagerM α') (m n : Manager)
    (post : α → α' → Store → Store → Prop) : Prop :=
  PacedWith op op' m n fun a a' m n => post a a' m.store n.store

/-- The answers are the same. -/
abbrev Same (a a' : α) (_ _ : Store) : Prop :=
  a = a'

theorem paced_lift {op : DiagramM α} {op' : DiagramM α'} {post : α → α' → Store → Store → Prop}
    (h : Paired m n) (hop : Diagram.Paced op op' m.store n.store post) :
    Paced (liftM op) (liftM op') m n post := by
  unfold Paced PacedWith Lockstep
  rw [run_lift, run_lift]
  unfold Diagram.Paced Lockstep at hop
  generalize op.run.run m.store = left at hop ⊢
  generalize op'.run.run n.store = right at hop ⊢
  cases hop with
  | full hfull => exact .full hfull
  | failed hst hle hle' => exact .failed ⟨hst, h.registry_eq⟩ ⟨hle, le_rfl⟩ ⟨hle', le_rfl⟩
  | answered hst hle hle' hpost =>
    exact .answered ⟨hst, h.registry_eq⟩ ⟨hle, le_rfl⟩ ⟨hle', le_rfl⟩ hpost

theorem paced_note_bind (h : Paired m n) (level : Level) (message message' : Unit → String)
    {next : Unit → ManagerM α} {next' : Unit → ManagerM α'}
    {post : α → α' → Manager → Manager → Prop}
    (hnext : ∀ m' n', Paired m' n' → m ≤ m' → n ≤ n' →
      PacedWith (next ()) (next' ()) m' n' post) :
    PacedWith (note level message >>= next) (note level message' >>= next') m n post :=
  (paced_lift h (paced_note h.store level message message')).bind
    fun _ _ m' n' h' hle hle' _ => hnext m' n' h' hle hle'

theorem paced_registered_bind (h : Paired m n) {next : Registry → ManagerM α}
    {next' : Registry → ManagerM α'} {post : α → α' → Manager → Manager → Prop}
    (hnext : PacedWith (next m.registry) (next' m.registry) m n post) :
    PacedWith (registered >>= next) (registered >>= next') m n post := by
  unfold PacedWith Lockstep
  rw [run_registered_bind, run_registered_bind, h.registry_eq]
  exact hnext

theorem paced_setRegistry_bind (h : Paired m n) {registry : Registry}
    (hle : m.registry ≤ registry) {next : Unit → ManagerM α} {next' : Unit → ManagerM α'}
    {post : α → α' → Manager → Manager → Prop}
    (hnext : ∀ m' n', Paired m' n' → m ≤ m' → n ≤ n' →
      PacedWith (next ()) (next' ()) m' n' post) :
    PacedWith (setRegistry registry >>= next) (setRegistry registry >>= next') m n post := by
  have hset : Paced (setRegistry registry) (setRegistry registry) m n fun _ _ _ _ => True :=
    .answered ⟨h.store, rfl⟩ ⟨le_rfl, hle⟩ ⟨le_rfl, h.registry_eq ▸ hle⟩ trivial
  exact hset.bind fun _ _ m' n' h' hle hle' _ => hnext m' n' h' hle hle'

/-- The managers as they are now may be read, each on its own side. -/
theorem paced_get_bind {next : Manager → ManagerM α} {next' : Manager → ManagerM α'}
    {post : α → α' → Manager → Manager → Prop} (h : PacedWith (next m) (next' n) m n post) :
    PacedWith (get >>= next) (get >>= next') m n post :=
  h

theorem paced_diagrams_bind {next : Store → ManagerM α} {next' : Store → ManagerM α'}
    {post : α → α' → Manager → Manager → Prop}
    (h : PacedWith (next m.store) (next' n.store) m n post) :
    PacedWith (diagrams >>= next) (diagrams >>= next') m n post :=
  h

theorem paced_ofExcept (h : Paired m n) (result : Except Error α) :
    Paced (ofExcept result) (ofExcept result) m n Same := by
  cases result with
  | ok answer => exact lockstep_pure h rfl
  | error error => exact lockstep_throw _ h

theorem paced_newStateVars (h : Paired m n) (count : Nat) :
    Paced (newStateVars count) (newStateVars count) m n Same := by
  unfold newStateVars
  refine paced_registered_bind h ?_
  obtain ⟨vars, -, hopens⟩ := m.registry.opens_newAnonymousBlock count
  dsimp only
  refine paced_setRegistry_bind h hopens.grows fun m₁ n₁ h₁ _ _ => ?_
  exact paced_note_bind h₁ _ _ _ fun _ _ h₂ _ _ => lockstep_pure h₂ rfl

theorem paced_newNamedStateVars (h : Paired m n) (names : List String) :
    Paced (newNamedStateVars names) (newNamedStateVars names) m n Same := by
  unfold newNamedStateVars
  refine paced_registered_bind h ?_
  cases hblock : m.registry.newNamedBlock names with
  | error error => exact lockstep_throw _ h
  | ok opened =>
    obtain ⟨id, registry⟩ := opened
    obtain ⟨vars, hopens⟩ := Registry.opens_newNamedBlock hblock
    change Paced (pure _ >>= _) (pure _ >>= _) m n _
    rw [pure_bind]
    dsimp only
    refine paced_setRegistry_bind h hopens.grows fun m₁ n₁ h₁ _ _ => ?_
    exact paced_note_bind h₁ _ _ _ fun _ _ h₂ _ _ => lockstep_pure h₂ rfl

theorem paced_newProductBlock (h : Paired m n) (ids : List BlockId) :
    Paced (newProductBlock ids) (newProductBlock ids) m n Same := by
  unfold newProductBlock
  refine paced_registered_bind h ?_
  cases m.registry.findBlocks? ids with
  | none => exact lockstep_throw _ h
  | some blocks =>
    refine paced_setRegistry_bind h (Registry.le_addBlock _ _) fun m₁ n₁ h₁ _ _ => ?_
    exact paced_note_bind h₁ _ _ _ fun _ _ h₂ _ _ => lockstep_pure h₂ rfl

theorem paced_block (h : Paired m n) (id : BlockId) :
    Paced (Manager.block id) (Manager.block id) m n Same := by
  unfold Manager.block
  refine paced_registered_bind h ?_
  cases m.registry.block? id with
  | none => exact lockstep_throw _ h
  | some block => exact lockstep_pure h rfl

theorem paced_claimVars (h : Paired m n) (role : Role) (names : List String) :
    Paced (claimVars role names) (claimVars role names) m n Same := by
  unfold claimVars
  refine paced_registered_bind h ?_
  have hle := m.registry.le_claimAll role names
  generalize m.registry.claimAll role names = claimed at hle ⊢
  obtain ⟨result, registry⟩ := claimed
  exact paced_setRegistry_bind h hle fun m₁ n₁ h₁ _ _ => paced_ofExcept h₁ result

theorem paced_stateBit (h : Paired m n) (id : BlockId) (place : Nat) :
    Paced (stateBit id place) (stateBit id place) m n Copied := by
  unfold stateBit
  refine (paced_block h id).bind fun block _ m₁ n₁ h₁ _ _ heq => ?_
  obtain rfl := heq
  cases block.vars[place]? with
  | none => exact lockstep_throw _ h₁
  | some v => exact paced_lift h₁ (paced_literal h₁.store v)

theorem paced_named? (h : Paired m n) (name : String) :
    Paced (named? name) (named? name) m n fun e e' s t => Option.Rel (s.Copies t) e e' := by
  unfold named?
  refine paced_registered_bind h ?_
  cases m.registry.lookup? name with
  | none => exact lockstep_pure h .none
  | some v =>
    exact (paced_lift h (paced_literal h.store v)).bind fun _ _ _ _ h₁ _ _ he =>
      lockstep_pure h₁ (.some he)

theorem paced_stateCube (h : Paired m n) (id : BlockId) (state : List Bool) :
    Paced (stateCube id state) (stateCube id state) m n Copied := by
  unfold stateCube
  refine (paced_block h id).bind fun block _ m₁ n₁ h₁ _ _ heq => ?_
  obtain rfl := heq
  dsimp only
  split
  · exact paced_lift h₁ (paced_assignmentCube h₁.store _ _)
  · exact lockstep_throw _ h₁

end Manager

open Diagram

variable {s t s' t' : Store} {m n : Manager}

/-- The second automaton has the same variables and copies of the diagrams it was created with. -/
theorem Automaton.paced_create (h : m.Paired n) (id : BlockId) (initial : List Bool)
    {next next' : List Edge} {finals finals' : Edge} (hnext : CopiesEach m.store n.store next next')
    (hfinals : m.store.Copies n.store finals finals') :
    Manager.Paced (create id initial next finals) (create id initial next' finals') m n
      fun automaton automaton' s t => Automaton.Copies s t automaton automaton' := by
  unfold create
  rw [List.Forall₂.length_eq hnext]
  refine (Manager.paced_block h id).bind fun block _ m₁ n₁ h₁ hle hle' heq => ?_
  obtain rfl := heq
  dsimp only
  split
  · exact lockstep_pure h₁ ⟨rfl, rfl, rfl, rfl, rfl, hnext.mono hle.1 hle'.1,
      hfinals.mono hle.1 hle'.1⟩
  · exact lockstep_throw _ h₁

/-- The predicates are copies. -/
structure PairPredicates.Copies (s t : Store) (pair pair' : PairPredicates) : Prop where
  agent : s.Copies t pair.agent pair'.agent
  reaction : s.Copies t pair.reaction pair'.reaction
  both : s.Copies t pair.both pair'.both

theorem PairPredicates.Copies.mono {pair pair' : PairPredicates}
    (h : PairPredicates.Copies s t pair pair') (hle : s ≤ s') (hle' : t ≤ t') :
    PairPredicates.Copies s' t' pair pair' :=
  ⟨h.agent.mono hle hle', h.reaction.mono hle hle', h.both.mono hle hle'⟩

/-- The cubes of the same names are copies. -/
structure CodeTable.Copies (s t : Store) (table table' : CodeTable) : Prop where
  names_eq : table'.names = table.names
  vars_eq : table'.vars = table.vars
  cubes : CopiesEach s t table.cubes table'.cubes

namespace CodeTable

variable {table table' : CodeTable}

theorem Copies.mono (h : CodeTable.Copies s t table table') (hle : s ≤ s') (hle' : t ≤ t') :
    CodeTable.Copies s' t' table table' :=
  ⟨h.names_eq, h.vars_eq, h.cubes.mono hle hle'⟩

theorem Copies.cube (h : CodeTable.Copies s t table table') (name : String) :
    s.Copies t (table.cube name) (table'.cube name) := by
  unfold CodeTable.cube
  rw [h.names_eq]
  have hcubes := h.cubes
  generalize table.cubes = cubes at hcubes ⊢
  generalize table'.cubes = cubes' at hcubes ⊢
  generalize table.names = names
  induction hcubes generalizing names with
  | nil => simpa using Store.Copies.terminal rfl
  | cons he _ ih =>
    cases names with
    | nil => exact .terminal rfl
    | cons other names =>
      rw [List.zip_cons_cons, List.zip_cons_cons, List.lookup_cons, List.lookup_cons]
      split
      · exact he
      · exact ih names

theorem paced_create (h : s.Paired t) (names : List String) (vars : List Var) :
    Paced (create names vars) (create names vars) s t
      fun table table' s t => CodeTable.Copies s t table table' := by
  unfold create
  have hcubes : Paced ((List.range names.length).mapM (codeCube vars))
      ((List.range names.length).mapM (codeCube vars)) s t
      fun cubes cubes' s t => CopiesEach s t cubes cubes' :=
    lockstep_mapM_self h (fun _ _ _ _ _ _ hc hle hle' => Store.Copies.mono hc hle hle')
      fun number s' t' h' _ _ => paced_assignmentCube h' _ _
  exact hcubes.bind fun _ _ _ _ h' _ _ hc => lockstep_pure h' ⟨rfl, rfl, hc⟩

end CodeTable

/-- What can be selected is the same. -/
structure Selection.Copies (s t : Store) (selection selection' : Selection) : Prop where
  agents : CodeTable.Copies s t selection.agents selection'.agents
  reactions : CodeTable.Copies s t selection.reactions selection'.reactions
  predicates :
    List.Forall₂ (PairPredicates.Copies s t) selection.predicates selection'.predicates
  agentMutex : s.Copies t selection.agentMutex selection'.agentMutex
  envMutex : s.Copies t selection.envMutex selection'.envMutex

theorem Selection.Copies.mono {selection selection' : Selection}
    (h : Selection.Copies s t selection selection') (hle : s ≤ s') (hle' : t ≤ t') :
    Selection.Copies s' t' selection selection' :=
  ⟨h.agents.mono hle hle', h.reactions.mono hle hle',
    h.predicates.imp fun _ _ hp => hp.mono hle hle', h.agentMutex.mono hle hle',
    h.envMutex.mono hle hle'⟩

/-- The encodings are over the same variables, with copies of the same diagrams. -/
structure Encoding.Copies (s t : Store) (encoding encoding' : Encoding) : Prop where
  domain_eq : encoding'.domain = encoding.domain
  automaton : Automaton.Copies s t encoding.automaton encoding'.automaton
  invariant : s.Copies t encoding.invariant encoding'.invariant
  agentMutex : s.Copies t encoding.agentMutex encoding'.agentMutex
  envMutex : s.Copies t encoding.envMutex encoding'.envMutex
  agentPrecondition : s.Copies t encoding.agentPrecondition encoding'.agentPrecondition
  envPrecondition : s.Copies t encoding.envPrecondition encoding'.envPrecondition
  predicates : List.Forall₂ (fun p p' => p'.1 = p.1 ∧ PairPredicates.Copies s t p.2 p'.2)
    encoding.predicates encoding'.predicates
  agentNames_eq : encoding'.agentNames = encoding.agentNames
  reactionNames_eq : encoding'.reactionNames = encoding.reactionNames
  outputs_eq : encoding'.outputs = encoding.outputs
  inputs_eq : encoding'.inputs = encoding.inputs
  mode_eq : encoding'.mode = encoding.mode

namespace Encoding

open Manager (paced_lift paced_note_bind paced_stateBit)

/-- The pairs are the same, with copies of their predicates. -/
def CopiesPairs (s t : Store) (pairs pairs' : List (Action × PairPredicates)) : Prop :=
  List.Forall₂ (fun p p' => p'.1 = p.1 ∧ PairPredicates.Copies s t p.2 p'.2) pairs pairs'

variable {agents agents' reactions reactions' : CodeTable} {actions : List Action}
  {pairs pairs' : List (Action × PairPredicates)} {e e' f f' : Edge} {id : BlockId}

theorem CopiesPairs.mono (h : CopiesPairs s t pairs pairs') (hle : s ≤ s') (hle' : t ≤ t') :
    CopiesPairs s' t' pairs pairs' :=
  h.imp fun _ _ hp => ⟨hp.1, hp.2.mono hle hle'⟩

theorem paced_fluentCube (h : m.Paired n) (id : BlockId) (holding failing : FluentSet) :
    Manager.Paced (fluentCube id holding failing) (fluentCube id holding failing) m n Copied := by
  have hliterals : ∀ (value : Bool) (places : List Nat) {m n : Manager}, m.Paired n →
      Manager.Paced (places.mapM (stateLiteral id value)) (places.mapM (stateLiteral id value)) m n
        Manager.Same := by
    intro value places m n h
    have hone : ∀ place (m₁ n₁ : Manager), m₁.Paired n₁ → m ≤ m₁ → n ≤ n₁ →
        Manager.Paced (stateLiteral id value place) (stateLiteral id value place) m₁ n₁
          Manager.Same := by
      intro place m₁ n₁ h₁ _ _
      unfold stateLiteral
      refine (Manager.paced_block h₁ id).bind fun block _ m₂ n₂ h₂ _ _ heq => ?_
      obtain rfl := heq
      cases block.vars[place]? with
      | none => exact lockstep_throw _ h₂
      | some v => exact lockstep_pure h₂ rfl
    refine (lockstep_mapM_self h (fun _ _ _ _ _ _ heq _ _ => heq) hone).weaken
      fun l l' _ _ _ _ _ hl => ?_
    have hl : List.Forall₂ (· = ·) l l' := hl
    rwa [List.forall₂_eq_eq_eq] at hl
  unfold fluentCube
  refine (hliterals true _ h).bind fun positive _ m₁ n₁ h₁ _ _ heq => ?_
  obtain rfl := heq
  refine (hliterals false _ h₁).bind fun negative _ m₂ n₂ h₂ _ _ heq => ?_
  obtain rfl := heq
  exact paced_lift h₂ (paced_cube h₂.store _)

section Selections

variable (h : s.Paired t)
include h

theorem paced_pairPredicates (hagents : CodeTable.Copies s t agents agents')
    (hreactions : CodeTable.Copies s t reactions reactions') (action : Action) :
    Paced (pairPredicates agents reactions action) (pairPredicates agents' reactions' action) s t
      fun pair pair' s t => PairPredicates.Copies s t pair pair' := by
  unfold pairPredicates
  have hagent := hagents.cube action.agent
  have hreaction := hreactions.cube action.reaction
  exact (paced_conj h hagent hreaction).bind fun _ _ _ _ h' hle hle' hboth =>
    lockstep_pure h' ⟨hagent.mono hle hle', hreaction.mono hle hle', hboth⟩

theorem paced_selection (actions : List Action) (agentNames reactionNames : List String)
    (outputs inputs : List Var) :
    Paced (selection actions agentNames reactionNames outputs inputs)
      (selection actions agentNames reactionNames outputs inputs) s t
      fun selection selection' s t => Selection.Copies s t selection selection' := by
  unfold selection
  apply (CodeTable.paced_create h agentNames outputs).bind
  intro agents agents' s₁ t₁ h₁ _ _ hagents
  apply (CodeTable.paced_create h₁ reactionNames inputs).bind
  intro reactions reactions' s₂ t₂ h₂ hle₂ hle₂' hreactions
  have hagents := hagents.mono hle₂ hle₂'
  have hpredicates : Paced (allPredicates agents reactions actions)
      (allPredicates agents' reactions' actions) s₂ t₂
      fun pairs pairs' s t => List.Forall₂ (PairPredicates.Copies s t) pairs pairs' :=
    lockstep_mapM_self h₂ (fun _ _ _ _ _ _ hp hle hle' => PairPredicates.Copies.mono hp hle hle')
      fun action _ _ h' hle hle' =>
        paced_pairPredicates h' (hagents.mono hle hle') (hreactions.mono hle hle') action
  apply hpredicates.bind
  intro predicates predicates' s₃ t₃ h₃ hle₃ hle₃' hpredicates
  have hagents := hagents.mono hle₃ hle₃'
  have hreactions := hreactions.mono hle₃ hle₃'
  apply (paced_disjAll h₃ hagents.cubes).bind
  intro agentMutex agentMutex' s₄ t₄ h₄ hle₄ hle₄' hagentMutex
  apply (paced_disjAll h₄ (hreactions.cubes.mono hle₄ hle₄')).bind
  intro envMutex envMutex' s₅ t₅ h₅ hle₅ hle₅' henvMutex
  have hle := hle₄.trans hle₅
  have hle' := hle₄'.trans hle₅'
  exact lockstep_pure h₅ ⟨hagents.mono hle hle', hreactions.mono hle hle',
    hpredicates.imp fun _ _ hp => hp.mono hle hle', hagentMutex.mono hle₅ hle₅', henvMutex⟩

theorem paced_someSelected (hpairs : CopiesPairs s t pairs pairs') (wanted : Action → Bool) :
    Paced (someSelected pairs wanted) (someSelected pairs' wanted) s t Copied := by
  unfold someSelected
  refine paced_disjAll h ?_
  induction hpairs with
  | nil => exact .nil
  | @cons p p' _ _ hp _ ih =>
    obtain ⟨action, pair⟩ := p
    obtain ⟨action', pair'⟩ := p'
    obtain ⟨rfl, hpair⟩ : action' = action ∧ PairPredicates.Copies s t pair pair' := hp
    rw [List.filter_cons, List.filter_cons]
    dsimp only
    split
    · exact .cons hpair.both ih
    · exact ih

theorem paced_legalAgents {legal legal' : Std.TreeMap String Edge}
    (hlegal : CopiesMap s t legal legal') (hpairs : CopiesPairs s t pairs pairs') :
    Paced (legalAgents legal pairs) (legalAgents legal' pairs') s t
      fun legal legal' s t => CopiesMap s t legal legal' := by
  induction pairs generalizing s t legal legal' pairs' with
  | nil =>
    cases hpairs
    exact lockstep_pure h hlegal
  | cons p rest ih =>
    cases hpairs with
    | @cons _ p' _ rest' hp hrest =>
      obtain ⟨action, pair⟩ := p
      obtain ⟨action', pair'⟩ := p'
      obtain ⟨rfl, hpair⟩ : action' = action ∧ PairPredicates.Copies s t pair pair' := hp
      rw [legalAgents, legalAgents]
      apply (paced_disj h (hlegal.getD action'.reaction (.terminal rfl)) hpair.agent).bind
      intro agents agents' s₁ t₁ h₁ hle hle' hagents
      exact ih h₁ ((hlegal.mono hle hle').insert _ hagents) (CopiesPairs.mono hrest hle hle')

theorem paced_reactionLegal (hreactions : CodeTable.Copies s t reactions reactions')
    (hpairs : CopiesPairs s t pairs pairs') :
    Paced (reactionLegal reactions pairs) (reactionLegal reactions' pairs') s t Copied := by
  unfold reactionLegal
  apply (paced_legalAgents h copiesMap_empty hpairs).bind
  intro legal legal' s₁ t₁ h₁ hle₁ hle₁' hlegal
  have hreactions := hreactions.mono hle₁ hle₁'
  have hanswers : Paced
      (legal.toList.mapM fun p => Diagram.imply (reactions.cube p.1) p.2)
      (legal'.toList.mapM fun p => Diagram.imply (reactions'.cube p.1) p.2)
      s₁ t₁ fun edges edges' s t => CopiesEach s t edges edges' := by
    refine lockstep_mapM h₁ (fun _ _ _ _ _ _ hc hle hle' => Store.Copies.mono hc hle hle')
      hlegal.toList fun p p' s' t' hp h' hle hle' => ?_
    obtain ⟨reaction, agents⟩ := p
    obtain ⟨reaction', agents'⟩ := p'
    obtain ⟨rfl, hagents⟩ : reaction' = reaction ∧ s₁.Copies t₁ agents agents' := hp
    exact paced_imply h' ((hreactions.mono hle hle').cube _) (hagents.mono hle hle')
  exact hanswers.bind fun _ _ _ _ h' _ _ hedges => paced_conjAll h' hedges

end Selections

section Conditions

variable (h : m.Paired n)
include h

theorem paced_nextFluent (id : BlockId) (hpairs : CopiesPairs m.store n.store pairs pairs')
    (fluent : Nat) :
    Manager.Paced (nextFluent id pairs fluent) (nextFluent id pairs' fluent) m n Copied := by
  unfold nextFluent
  apply (paced_lift h (paced_someSelected h.store hpairs _)).bind
  intro added added' m₁ n₁ h₁ hle₁ hle₁' hadded
  apply (paced_lift h₁ (paced_someSelected h₁.store (hpairs.mono hle₁.1 hle₁'.1) _)).bind
  intro deleted deleted' m₂ n₂ h₂ hle₂ hle₂' hdeleted
  apply (paced_stateBit h₂ id fluent).bind
  intro bit bit' m₃ n₃ h₃ hle₃ hle₃' hbit
  apply (paced_lift h₃ (paced_conj h₃.store hbit (hdeleted.mono hle₃.1 hle₃'.1).neg)).bind
  intro kept kept' m₄ n₄ h₄ hle₄ hle₄' hkept
  have hle := hle₂.1.trans (hle₃.1.trans hle₄.1)
  have hle' := hle₂'.1.trans (hle₃'.1.trans hle₄'.1)
  exact paced_lift h₄ (paced_disj h₄.store hkept (hadded.mono hle hle'))

theorem paced_applicable (id : BlockId) (hagents : CodeTable.Copies m.store n.store agents agents')
    (seen : List String) (he : m.store.Copies n.store e e') (actions : List Action) :
    Manager.Paced (applicable id agents seen e actions) (applicable id agents' seen e' actions) m n
      Copied := by
  induction actions generalizing m n seen e e' with
  | nil => exact lockstep_pure h he
  | cons action rest ih =>
    rw [applicable, applicable]
    split
    · exact ih h hagents seen he
    apply (paced_fluentCube h id action.required action.forbidden).bind
    intro conditions conditions' m₁ n₁ h₁ hle₁ hle₁' hconditions
    have hagents := hagents.mono hle₁.1 hle₁'.1
    apply (paced_lift h₁ (paced_imply h₁.store (hagents.cube action.agent) hconditions)).bind
    intro needed needed' m₂ n₂ h₂ hle₂ hle₂' hneeded
    have hle := hle₁.1.trans hle₂.1
    have hle' := hle₁'.1.trans hle₂'.1
    apply (paced_lift h₂ (paced_conj h₂.store (he.mono hle hle') hneeded)).bind
    intro edge edge' m₃ n₃ h₃ hle₃ hle₃' hedge
    exact ih h₃ ((hagents.mono hle₂.1 hle₂'.1).mono hle₃.1 hle₃'.1) _ hedge

theorem paced_excludes (id : BlockId) (he : m.store.Copies n.store e e') (fluent : Nat)
    (failing holding : List Nat) :
    Manager.Paced (excludes id e fluent failing holding) (excludes id e' fluent failing holding) m n
      Copied := by
  have hbits : ∀ {m n : Manager}, m.Paired n → ∀ places : List Nat,
      Manager.Paced (places.mapM (Manager.stateBit id)) (places.mapM (Manager.stateBit id)) m n
        fun edges edges' s t => CopiesEach s t edges edges' := fun h places =>
    lockstep_mapM_self h (fun _ _ _ _ _ _ hc hle hle' => Store.Copies.mono hc hle.1 hle'.1)
      fun place _ _ h' _ _ => paced_stateBit h' id place
  have hnegated : ∀ {m n : Manager}, m.Paired n → ∀ places : List Nat,
      Manager.Paced (places.mapM fun place => return -(← Manager.stateBit id place))
        (places.mapM fun place => return -(← Manager.stateBit id place)) m n
        fun edges edges' s t => CopiesEach s t edges edges' := fun h places =>
    lockstep_mapM_self h (fun _ _ _ _ _ _ hc hle hle' => Store.Copies.mono hc hle.1 hle'.1)
      fun place _ _ h' _ _ => (paced_stateBit h' id place).bind
        fun _ _ _ _ h'' _ _ hbit => lockstep_pure h'' hbit.neg
  unfold excludes
  apply (hnegated h failing).bind
  intro negative negative' m₁ n₁ h₁ hle₁ hle₁' hnegative
  apply (hbits h₁ holding).bind
  intro positive positive' m₂ n₂ h₂ hle₂ hle₂' hpositive
  have hothers : CopiesEach m₂.store n₂.store (negative ++ positive) (negative' ++ positive') :=
    List.rel_append (hnegative.mono hle₂.1 hle₂'.1) hpositive
  apply (paced_lift h₂ (paced_conjAll h₂.store hothers)).bind
  intro others others' m₃ n₃ h₃ hle₃ hle₃' hothers
  apply (paced_stateBit h₃ id fluent).bind
  intro bit bit' m₄ n₄ h₄ hle₄ hle₄' hbit
  apply (paced_lift h₄ (paced_imply h₄.store hbit (hothers.mono hle₄.1 hle₄'.1))).bind
  intro needed needed' m₅ n₅ h₅ hle₅ hle₅' hneeded
  have hle := hle₁.1.trans (hle₂.1.trans (hle₃.1.trans (hle₄.1.trans hle₅.1)))
  have hle' := hle₁'.1.trans (hle₂'.1.trans (hle₃'.1.trans (hle₄'.1.trans hle₅'.1)))
  exact paced_lift h₅ (paced_conj h₅.store (he.mono hle hle') hneeded)

theorem paced_invariantEdge (id : BlockId) (invariant : Invariant) :
    Manager.Paced (invariantEdge id invariant) (invariantEdge id invariant) m n Copied := by
  have hfold : ∀ {m n : Manager} {e e' : Edge}, m.Paired n → m.store.Copies n.store e e' →
      ∀ (fluents : List Nat) (failing holding : Nat → List Nat),
      Manager.Paced
        (fluents.foldlM (fun e fluent => excludes id e fluent (failing fluent) (holding fluent)) e)
        (fluents.foldlM (fun e fluent => excludes id e fluent (failing fluent) (holding fluent)) e')
        m n Copied := fun h he fluents failing holding =>
    lockstep_foldlM h he fun fluent _ _ _ _ _ h' _ _ he' => paced_excludes h' id he' fluent _ _
  unfold invariantEdge
  exact (hfold h (.terminal rfl) _ _ _).bind fun _ _ _ _ h' _ _ he => hfold h' he _ _ _

theorem paced_invariantsEdge (domain : Domain) (id : BlockId) :
    Manager.Paced (invariantsEdge domain id) (invariantsEdge domain id) m n Copied := by
  have hinvariants : Manager.Paced (domain.invariants.mapM (invariantEdge id))
      (domain.invariants.mapM (invariantEdge id)) m n
      fun edges edges' s t => CopiesEach s t edges edges' :=
    lockstep_mapM_self h (fun _ _ _ _ _ _ hc hle hle' => Store.Copies.mono hc hle.1 hle'.1)
      fun invariant _ _ h' _ _ => paced_invariantEdge h' id invariant
  unfold invariantsEdge
  exact hinvariants.bind fun _ _ _ _ h' _ _ hedges => paced_lift h' (paced_conjAll h'.store hedges)

theorem paced_safety (domain : Domain) (mode : AgentErrorMode) {automaton automaton' : Automaton}
    (hautomaton : Automaton.Copies m.store n.store automaton automaton')
    (he : m.store.Copies n.store e e') :
    Manager.Paced (safety domain mode automaton e) (safety domain mode automaton' e') m n
      Copied := by
  unfold safety
  rw [hautomaton.block_eq]
  cases mode with
  | invariant =>
    unfold Automaton.initialCube
    rw [hautomaton.block_eq, hautomaton.initial_eq]
    exact (Manager.paced_stateCube h _ _).bind fun _ _ _ _ h' hle hle' hcube =>
      paced_lift h' (paced_disj h'.store (he.mono hle.1 hle'.1) hcube)
  | errorBit =>
    exact (paced_stateBit h _ _).bind fun _ _ _ _ h' _ _ hbit => lockstep_pure h' hbit.neg

theorem paced_nextEnvError (id : BlockId) (place : Nat) (he : m.store.Copies n.store e e')
    (hf : m.store.Copies n.store f f') :
    Manager.Paced (nextEnvError id place e f) (nextEnvError id place e' f') m n Copied := by
  unfold nextEnvError
  apply (paced_stateBit h id place).bind
  intro bit bit' m₁ n₁ h₁ hle₁ hle₁' hbit
  apply (paced_lift h₁ (paced_disj h₁.store (he.mono hle₁.1 hle₁'.1).neg
    (hf.mono hle₁.1 hle₁'.1).neg)).bind
  intro violation violation' m₂ n₂ h₂ hle₂ hle₂' hviolation
  exact paced_lift h₂ (paced_disj h₂.store (hbit.mono hle₂.1 hle₂'.1) hviolation)

theorem paced_nextAgentError (id : BlockId) (place : Nat) (he : m.store.Copies n.store e e')
    (mode : AgentErrorMode) :
    Manager.Paced (nextAgentError id place e mode) (nextAgentError id place e' mode) m n
      fun edges edges' s t => CopiesEach s t edges edges' := by
  cases mode with
  | invariant => exact lockstep_pure h .nil
  | errorBit =>
    rw [nextAgentError, nextAgentError]
    apply (paced_stateBit h id place).bind
    intro bit bit' m₁ n₁ h₁ hle₁ hle₁' hbit
    apply (paced_lift h₁ (paced_disj h₁.store hbit (he.mono hle₁.1 hle₁'.1).neg)).bind
    intro next next' m₂ n₂ h₂ _ _ hnext
    exact lockstep_pure h₂ (.cons hnext .nil)

theorem paced_playable (domain : Domain) (mode : AgentErrorMode)
    {automaton automaton' : Automaton}
    (hautomaton : Automaton.Copies m.store n.store automaton automaton')
    (he : m.store.Copies n.store e e') :
    Manager.Paced (playable domain mode automaton e) (playable domain mode automaton' e') m n
      Copied := by
  rw [playable_eq, playable_eq, hautomaton.block_eq]
  apply (paced_invariantsEdge h domain _).bind
  intro invariants invariants' m₁ n₁ h₁ hle₁ hle₁' hinvariants
  apply (paced_safety h₁ domain mode (hautomaton.mono hle₁.1 hle₁'.1)
    (he.mono hle₁.1 hle₁'.1)).bind
  intro safety safety' m₂ n₂ h₂ hle₂ hle₂' hsafety
  exact paced_lift h₂ (paced_conj h₂.store (hinvariants.mono hle₂.1 hle₂'.1) hsafety)

end Conditions

/-- Given names, for actions or for pairs, the predicates go on to be copies. -/
theorem copies_zip {α : Type} {predicates predicates' : List PairPredicates}
    (h : List.Forall₂ (PairPredicates.Copies s t) predicates predicates') (names : List α) :
    List.Forall₂ (fun p p' => p'.1 = p.1 ∧ PairPredicates.Copies s t p.2 p'.2)
      (names.zip predicates) (names.zip predicates') := by
  induction h generalizing names with
  | nil => rw [List.zip_nil_right]; exact .nil
  | cons hp _ ih =>
    cases names with
    | nil => exact .nil
    | cons name names => exact .cons ⟨rfl, hp⟩ (ih names)

theorem paced_encode (h : m.Paired n) (domain : Domain) (mode : AgentErrorMode) (id : BlockId)
    (outputs inputs : List Var) :
    Manager.Paced (encode domain mode id outputs inputs) (encode domain mode id outputs inputs) m n
      fun encoding encoding' s t => Encoding.Copies s t encoding encoding' := by
  unfold encode
  dsimp only
  apply (paced_lift h (paced_selection h.store _ _ _ _ _)).bind
  intro selected selected' m₁ n₁ h₁ _ _ hselected
  have hpairs : CopiesPairs m₁.store n₁.store (domain.actionList.zip selected.predicates)
      (domain.actionList.zip selected'.predicates) := copies_zip hselected.predicates _
  have hfluents : Manager.Paced
      ((List.range domain.fluents.length).mapM
        (nextFluent id (domain.actionList.zip selected.predicates)))
      ((List.range domain.fluents.length).mapM
        (nextFluent id (domain.actionList.zip selected'.predicates))) m₁ n₁
      fun edges edges' s t => CopiesEach s t edges edges' :=
    lockstep_mapM_self h₁ (fun _ _ _ _ _ _ hc hle hle' => Store.Copies.mono hc hle.1 hle'.1)
      fun fluent _ _ h' hle hle' => paced_nextFluent h' id (hpairs.mono hle.1 hle'.1) fluent
  apply hfluents.bind
  intro fluents fluents' m₂ n₂ h₂ hle₂ hle₂' hfluents
  have hselected := hselected.mono hle₂.1 hle₂'.1
  apply (paced_lift h₂ (paced_reactionLegal h₂.store hselected.reactions
    (hpairs.mono hle₂.1 hle₂'.1))).bind
  intro envPrecondition envPrecondition' m₃ n₃ h₃ hle₃ hle₃' henv
  have hselected := hselected.mono hle₃.1 hle₃'.1
  apply (paced_applicable h₃ id hselected.agents [] (.terminal rfl) domain.actionList).bind
  intro agentPrecondition agentPrecondition' m₄ n₄ h₄ hle₄ hle₄' hagent
  have hselected := hselected.mono hle₄.1 hle₄'.1
  have henv := henv.mono hle₄.1 hle₄'.1
  apply (paced_nextEnvError h₄ id _ hselected.envMutex henv).bind
  intro envError envError' m₅ n₅ h₅ hle₅ hle₅' henvError
  have hselected := hselected.mono hle₅.1 hle₅'.1
  have hagent := hagent.mono hle₅.1 hle₅'.1
  apply (paced_lift h₅ (paced_conj h₅.store hagent hselected.agentMutex)).bind
  intro agentOk agentOk' m₆ n₆ h₆ hle₆ hle₆' hagentOk
  apply (paced_nextAgentError h₆ id _ hagentOk mode).bind
  intro agentError agentError' m₇ n₇ h₇ hle₇ hle₇' hagentError
  apply (paced_fluentCube h₇ id domain.goal domain.goalForbidden).bind
  intro finals finals' m₈ n₈ h₈ hle₈ hle₈' hfinals
  have hle₅₈ := hle₆.1.trans (hle₇.1.trans hle₈.1)
  have hle₅₈' := hle₆'.1.trans (hle₇'.1.trans hle₈'.1)
  have hle₂₈ := hle₃.1.trans (hle₄.1.trans (hle₅.1.trans hle₅₈))
  have hle₂₈' := hle₃'.1.trans (hle₄'.1.trans (hle₅'.1.trans hle₅₈'))
  have hnext : CopiesEach m₈.store n₈.store (fluents ++ [envError] ++ agentError)
      (fluents' ++ [envError'] ++ agentError') :=
    List.rel_append (List.rel_append (hfluents.mono hle₂₈ hle₂₈')
      (.cons (henvError.mono hle₅₈ hle₅₈') .nil)) (hagentError.mono hle₈.1 hle₈'.1)
  apply (Automaton.paced_create h₈ id _ hnext hfinals).bind
  intro automaton automaton' m₉ n₉ h₉ hle₉ hle₉' hautomaton
  have hautomaton : Automaton.Copies m₉.store n₉.store { automaton with inputs, outputs }
      { automaton' with inputs, outputs } :=
    ⟨hautomaton.1, hautomaton.2, hautomaton.3, rfl, rfl, hautomaton.next, hautomaton.finals⟩
  have hle₆₉ := hle₇.1.trans (hle₈.1.trans hle₉.1)
  have hle₆₉' := hle₇'.1.trans (hle₈'.1.trans hle₉'.1)
  apply (paced_playable h₉ domain mode hautomaton (hagentOk.mono hle₆₉ hle₆₉')).bind
  intro invariant invariant' m₁₀ n₁₀ h₁₀ hle₁₀ hle₁₀' hinvariant
  refine paced_note_bind h₁₀ _ _ _ fun m₁₁ n₁₁ h₁₁ hle₁₁ hle₁₁' => ?_
  have hle₉₁₁ := hle₁₀.1.trans hle₁₁.1
  have hle₉₁₁' := hle₁₀'.1.trans hle₁₁'.1
  have hle := hle₆.1.trans (hle₆₉.trans hle₉₁₁)
  have hle' := hle₆'.1.trans (hle₆₉'.trans hle₉₁₁')
  have hselected := hselected.mono hle hle'
  exact lockstep_pure h₁₁ {
    domain_eq := rfl
    automaton := hautomaton.mono hle₉₁₁ hle₉₁₁'
    invariant := hinvariant.mono hle₁₁.1 hle₁₁'.1
    agentMutex := hselected.agentMutex
    envMutex := hselected.envMutex
    agentPrecondition := hagent.mono hle hle'
    envPrecondition := (henv.mono hle₅.1 hle₅'.1).mono hle hle'
    predicates := copies_zip hselected.predicates _
    agentNames_eq := rfl
    reactionNames_eq := rfl
    outputs_eq := rfl
    inputs_eq := rfl
    mode_eq := rfl }

/-- A domain is compiled alike, over the same new variables. -/
theorem paced_ofDomain (h : m.Paired n) (domain : Domain) (mode : AgentErrorMode) :
    Manager.Paced (ofDomain domain mode) (ofDomain domain mode) m n
      fun encoding encoding' s t => Encoding.Copies s t encoding encoding' := by
  unfold ofDomain
  dsimp only
  refine (Manager.paced_newNamedStateVars h _).bind fun id _ m₁ n₁ h₁ _ _ heq => ?_
  obtain rfl := heq
  refine (Manager.paced_claimVars h₁ _ _).bind fun outputs _ m₂ n₂ h₂ _ _ heq => ?_
  obtain rfl := heq
  refine (Manager.paced_claimVars h₂ _ _).bind fun inputs _ m₃ n₃ h₃ _ _ heq => ?_
  obtain rfl := heq
  exact paced_note_bind h₃ _ _ _ fun _ _ h₄ _ _ => paced_encode h₄ domain mode id outputs inputs

end Encoding

end PlanningGame
