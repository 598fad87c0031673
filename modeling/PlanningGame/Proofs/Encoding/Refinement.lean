import Mathlib
import PlanningGame.Game.BestEffort
import PlanningGame.Proofs.Game.Solving
import PlanningGame.Proofs.Encoding.Cleared

/-!
# Encoded domains are solved as they are

The adversarial game of an encoding is realizable exactly if the agent wins the game of the domain.
The set of states that the solver computes and the states that are won are both least sets. A state
that is won lies in the attractor, by induction on why it is won: reactions that the action does
not have lead to a state with `env_err`, in which the same action reaches the goal. Conversely the
states that are won, together with all states that have an error bit, form a set that is closed
under the steps of the attractor.
-/
namespace PlanningGame.Encoding

open Manager

variable {registry : Registry} {store : Store} {manager : Manager} {domain : Domain}
  {mode : AgentErrorMode} {encoding : Encoding} {s : List Bool} {room : Store → Prop}

/-- A state and a choice that play may use. -/
structure Usable (domain : Domain) (s : List Bool) (name : Option String) : Prop where
  admits : domain.Admits s
  applicable : ∃ chosen, name = some chosen ∧ domain.Applicable chosen s
  blameless : ¬ s[domain.fluents.length + 1]? = some true

/-- The goal is reached, or the environment has broken its rules. -/
structure Reached (domain : Domain) (s : List Bool) (name : Option String) : Prop where
  usable : Usable domain s name
  reached : s[domain.fluents.length]? = some true ∨ domain.isGoal s = .ok true

section Diagrams

theorem Faithful.stateVars_length (h : Faithful registry store domain mode encoding)
    (hdomain : domain.WellFormed) :
    encoding.automaton.stateVars.length =
      domain.fluents.length + (flags mode false false).length := by
  rw [← h.initial_length, h.initial_eq, initialState_eq, List.length_append,
    hdomain.initial_length]

/-- In a state without an error of the agent a choice may be used as in the domain. -/
theorem usable_append_iff (hdomain : domain.WellFormed) (hs : s.length = domain.fluents.length)
    {envError : Bool} {name : Option String} :
    Usable domain (s ++ flags mode envError false) name ↔
      domain.Admits s ∧ ∃ chosen, name = some chosen ∧ domain.Applicable chosen s := by
  have happ : ∀ chosen, domain.Applicable chosen (s ++ flags mode envError false) ↔
      domain.Applicable chosen s := fun _ => hdomain.applicable_append_iff hs
  constructor
  · rintro ⟨hadmits, ⟨chosen, hname, happlicable⟩, -⟩
    exact ⟨(hdomain.admits_append_iff hs).1 hadmits, chosen, hname, (happ chosen).1 happlicable⟩
  · rintro ⟨hadmits, chosen, hname, happlicable⟩
    exact ⟨(hdomain.admits_append_iff hs).2 hadmits, ⟨chosen, hname, (happ chosen).2 happlicable⟩,
      getElem?_agentError hs mode envError⟩

/-- Without the bit `agent_err` no state has it set. -/
theorem Faithful.blameless_of_invariant (h : Faithful registry store domain .invariant encoding)
    (hdomain : domain.WellFormed) (a : Valuation) :
    ¬ (encoding.automaton.stateOf a)[domain.fluents.length + 1]? = some true := by
  have hlength := h.stateVars_length hdomain
  rw [List.getElem?_eq_none]
  · simp
  · simp [hlength, flags]

theorem Faithful.ensures_stateSpace (h : Faithful registry store domain mode encoding)
    (hdomain : domain.WellFormed) (hs : store.Sound) :
    Diagram.Ensures encoding.stateSpace store fun e later => later.Denotes e fun a =>
      Usable domain (encoding.automaton.stateOf a) (encoding.action a) := by
  have hall : store.DenotesEach (fun P : Valuation → Prop => P) [_, _, _] _ :=
    .cons h.invariant (.cons h.agentMutex (.cons h.agentPrecondition .nil))
  refine (Diagram.ensures_conjAll_each hs hall).weaken fun e later _ _ he => he.congr fun a => ?_
  simp only [List.forall_mem_cons, List.not_mem_nil, IsEmpty.forall_iff, implies_true, and_true]
  constructor
  · rintro ⟨⟨hadmits, hsafe⟩, hsome, hall⟩
    refine ⟨hadmits, forall_and_isSome_iff.1 ⟨hall, hsome⟩, ?_⟩
    cases mode with
    | invariant => exact h.blameless_of_invariant hdomain a
    | errorBit => exact hsafe
  · rintro ⟨hadmits, happ, hblameless⟩
    obtain ⟨hall, hsome⟩ := forall_and_isSome_iff.2 happ
    refine ⟨⟨hadmits, ?_⟩, hsome, hall⟩
    cases mode with
    | invariant => exact .inl happ
    | errorBit => exact hblameless

theorem Faithful.envError_lt (h : Faithful registry store domain mode encoding)
    (hdomain : domain.WellFormed) :
    domain.fluents.length < encoding.automaton.stateVars.length := by
  rw [h.stateVars_length hdomain]
  cases mode <;> simp [flags]

theorem Faithful.delivers_agentError (hm : Stands registry manager)
    (h : Faithful registry store domain mode encoding) (hdomain : domain.WellFormed)
    (hroom : ∀ store, room store → Diagram.HasRoom store) :
    Manager.Delivers room registry encoding.agentError manager fun e later =>
      later.store.Denotes e fun a =>
        (encoding.automaton.stateOf a)[domain.fluents.length + 1]? = some true := by
  unfold agentError agentErrorBit?
  rw [h.mode_eq, h.domain_eq]
  cases mode with
  | invariant =>
    refine delivers_pure hm (hm.sound.founded.denotes_zero.congr fun a => ?_)
    exact iff_of_false not_false (h.blameless_of_invariant hdomain a)
  | errorBit =>
    refine delivers_stateBit hroom hm h.placed.owns ?_
    simp [h.stateVars_length hdomain, flags]

theorem Faithful.delivers_envError (hm : Stands registry manager)
    (h : Faithful registry store domain mode encoding) (hdomain : domain.WellFormed)
    (hroom : ∀ store, room store → Diagram.HasRoom store) :
    Manager.Delivers room registry encoding.envError manager fun e later =>
      later.store.Denotes e fun a =>
        (encoding.automaton.stateOf a)[domain.fluents.length]? = some true := by
  unfold envError envErrorBit
  rw [h.domain_eq]
  exact delivers_stateBit hroom hm h.placed.owns (h.envError_lt hdomain)

theorem Faithful.delivers_adversarialGoal (hm : Stands registry manager)
    (h : Faithful registry manager.store domain mode encoding) (hdomain : domain.WellFormed)
    (hroom : ∀ store, room store → Diagram.HasRoom store) {target space : Edge}
    {T : Valuation → Prop} (htarget : manager.store.Denotes target T)
    (hspace : manager.store.Denotes space fun a =>
      Usable domain (encoding.automaton.stateOf a) (encoding.action a)) :
    Manager.Delivers room registry (encoding.adversarialGoal target space)
      manager fun e later => later.store.Denotes e fun a =>
        Usable domain (encoding.automaton.stateOf a) (encoding.action a) ∧
          ((encoding.automaton.stateOf a)[domain.fluents.length]? = some true ∨ T a) := by
  unfold adversarialGoal
  apply (h.delivers_agentError hm hdomain hroom).bind
  intro agentError m₁ hm₁ hle₁ hagent
  apply (h.delivers_envError hm₁ hdomain hroom).bind
  intro envError m₂ hm₂ hle₂ henv
  have htarget := htarget.mono hm.sound.toReduced (hle₁.trans hle₂).1
  apply (delivers_lift hm₂ ((Diagram.ensures_disj hm₂.sound henv htarget).delivers.mono hroom)).bind
  intro reached m₃ hm₃ hle₃ hreached
  have hagent := (hagent.mono hm₁.sound.toReduced (hle₂.trans hle₃).1).neg hm₃.sound.toReduced
  have hspace := hspace.mono hm.sound.toReduced ((hle₁.trans hle₂).trans hle₃).1
  have hall : m₃.store.DenotesEach (fun P : Valuation → Prop => P) [_, _, _] _ :=
    .cons hagent (.cons hreached (.cons hspace .nil))
  refine (delivers_lift hm₃ ((Diagram.ensures_conjAll_each hm₃.sound hall).delivers.mono
    hroom)).weaken fun e later _ _ he => he.congr fun a => ?_
  simp only [List.forall_mem_cons, List.not_mem_nil, IsEmpty.forall_iff, implies_true, and_true]
  constructor
  · exact fun ⟨_, hreached, husable⟩ => ⟨husable, hreached⟩
  · exact fun ⟨husable, hreached⟩ => ⟨husable.blameless, hreached, husable⟩

/-- A diagram of the state and the choice of the agent, read in a state. -/
theorem Faithful.holds_iff (h : Faithful registry store domain mode encoding) {e : Edge}
    {P : List Bool → Option String → Prop}
    (he : store.Denotes e fun a => P (encoding.automaton.stateOf a) (encoding.action a))
    (hs : s.length = encoding.automaton.stateVars.length) (X Y : Valuation) :
    encoding.automaton.Holds store e s X Y ↔ P s (encoding.action Y) := by
  rw [Automaton.Holds, he.eval_iff, h.action_joint, h.closed.stateOf_joint hs]

theorem over_of_denotes {e : Edge} {P : List Bool → Option String → Prop}
    (he : store.Denotes e fun a => P (encoding.automaton.stateOf a) (encoding.action a)) :
    store.Over (encoding.automaton.stateVars ++ encoding.automaton.outputs) e := by
  refine he.over fun a b hab hP => ?_
  have hstate : encoding.automaton.stateOf a = encoding.automaton.stateOf b :=
    stateOf_congr fun v hv => hab v (List.mem_append_left _ hv)
  have haction : encoding.action a = encoding.action b :=
    CodeTable.chosen_congr fun v hv => hab v (List.mem_append_right _ hv)
  rwa [← hstate, ← haction]

end Diagrams

section Attractor

variable {goal space : Edge} {maxIterations : Option Nat}

theorem mem_cpre_agentGame_iff {arena : Automaton} {W : Set (List Bool)} :
    s ∈ Game.cpre (agentGame arena maxIterations) store space W ↔
      ∃ Y, (∀ X, arena.Holds store space s X Y) ∧ ∀ X, arena.successor store s X Y ∈ W := by
  have hone : ∀ X Y, arena.Holds store .one s X Y := fun X Y => by simp [Automaton.Holds]
  change (∃ Y, (∀ X, arena.Holds store space s X Y) ∧
    ∀ X, arena.Holds store .one s X Y → arena.successor store s X Y ∈ W) ↔ _
  simp only [hone, forall_const]

theorem Faithful.game_closed (h : Faithful registry store domain mode encoding)
    (hr : store.Reduced) {P Q : List Bool → Option String → Prop}
    (hspace : store.Denotes space fun a => P (encoding.automaton.stateOf a) (encoding.action a))
    (hgoal : store.Denotes goal fun a => Q (encoding.automaton.stateOf a) (encoding.action a)) :
    (agentGame encoding.automaton maxIterations).Closed store goal space where
  arena := h.closed
  goal_over := over_of_denotes hgoal
  space_over := over_of_denotes hspace
  constraint_over := hr.over_one
  constraint_early _ := hr.over_one
  constraint_free _ := rfl

theorem exists_of_applicable {name : String} (h : domain.Applicable name s) :
    ∃ action ∈ domain.actionList, action.agent = name := by
  obtain ⟨action, hfind, -⟩ := h
  exact ⟨action, List.mem_of_find?_eq_some hfind, by simpa using List.find?_some hfind⟩

variable (h : Faithful registry store domain mode encoding) (hdomain : domain.WellFormed)
  (hspace : store.Denotes space fun a =>
    Usable domain (encoding.automaton.stateOf a) (encoding.action a))
  (hgoal : store.Denotes goal fun a =>
    Reached domain (encoding.automaton.stateOf a) (encoding.action a))
include h hdomain hspace hgoal

/-- An applicable action reaches the goal in a state that satisfies the goal or has `env_err`. -/
theorem Faithful.mem_base {chosen : String} {envError : Bool}
    (hs : s.length = domain.fluents.length) (hadmits : domain.Admits s)
    (happ : domain.Applicable chosen s) (hreached : envError = true ∨ domain.isGoal s = .ok true) :
    s ++ flags mode envError false ∈
      Game.base (agentGame encoding.automaton maxIterations) store goal space := by
  have hlength := h.length_state hdomain hs envError false
  obtain ⟨Y, hY⟩ := h.exists_action (exists_of_applicable happ)
  have husable : Usable domain (s ++ flags mode envError false) (encoding.action Y) :=
    (usable_append_iff hdomain hs).2 ⟨hadmits, chosen, hY, happ⟩
  refine ⟨Y, Y, (h.holds_iff hspace hlength Y Y).2 husable, (h.holds_iff hgoal hlength Y Y).2 ?_⟩
  refine ⟨husable, ?_⟩
  rcases hreached with rfl | hreached
  · exact .inl (getElem?_envError hs mode true false)
  · exact .inr ((hdomain.isGoal_append_iff hs).2 hreached)

omit hgoal in
/-- An applicable action leads into a set if each of its reactions does, and any other reaction. -/
theorem Faithful.mem_cpre {chosen : String} {W : Set (List Bool)}
    (hs : s.length = domain.fluents.length) (hadmits : domain.Admits s)
    (happ : domain.Applicable chosen s)
    (hnext : ∀ reaction, domain.Grounded chosen reaction →
      domain.result chosen reaction s ++ flags mode false false ∈ W)
    (herror : s ++ flags mode true false ∈ W) :
    s ++ flags mode false false ∈
      Game.cpre (agentGame encoding.automaton maxIterations) store space W := by
  have hlength := h.length_state hdomain hs false false
  obtain ⟨Y, hY⟩ := h.exists_action (exists_of_applicable happ)
  refine mem_cpre_agentGame_iff.2 ⟨Y, fun X => ?_, fun X => ?_⟩
  · rw [h.holds_iff hspace hlength]
    exact (usable_append_iff hdomain hs).2 ⟨hadmits, chosen, hY, happ⟩
  · obtain ⟨reaction, hgrounded, hnext'⟩ | herror' := h.successor_cases hdomain hs hY happ X
    · exact hnext' ▸ hnext reaction hgrounded
    · exact herror' ▸ herror

/-- A state that is won in a number of steps is found in as many iterations. -/
theorem Faithful.mem_layer_of_winsWithin {k : Nat} (hwins : domain.WinsWithin k s)
    (hs : s.length = domain.fluents.length) :
    s ++ flags mode false false ∈
      Game.layer (agentGame encoding.automaton maxIterations) store goal space k := by
  induction hwins with
  | @goal k s name hadmits happ hisGoal =>
    exact Game.layer_mono (Nat.zero_le k)
      (h.mem_base hdomain hspace hgoal hs hadmits happ (.inr hisGoal))
  | @step k s chosen hadmits happ _ ih =>
    refine .inr (h.mem_cpre hdomain hspace hs hadmits happ (fun reaction hgrounded => ?_) ?_)
    · exact ih reaction hgrounded ((domain.result_length _ _ _).trans hs)
    · -- the environment has no such reaction: the state stays and can be left for the goal
      exact Game.layer_mono (Nat.zero_le k)
        (h.mem_base hdomain hspace hgoal hs hadmits happ (.inl rfl))

theorem Faithful.mem_attractor_of_wins (hwins : domain.Wins s)
    (hs : s.length = domain.fluents.length) :
    s ++ flags mode false false ∈
      Game.attractor (agentGame encoding.automaton maxIterations) store goal space := by
  obtain ⟨k, hwins⟩ := hwins.exists_within
  exact Game.layer_subset_attractor k (h.mem_layer_of_winsWithin hdomain hspace hgoal hwins hs)

omit hspace in
/-- A state without errors in the base satisfies the goal. -/
theorem Faithful.winsWithin_zero_of_mem_base (hs : s.length = domain.fluents.length)
    (hmem : s ++ flags mode false false ∈
      Game.base (agentGame encoding.automaton maxIterations) store goal space) :
    domain.WinsWithin 0 s ∧ domain.isGoal s = .ok true := by
  obtain ⟨X, Y, -, hgoalHolds⟩ := hmem
  obtain ⟨husable, hreached⟩ :=
    (h.holds_iff hgoal (h.length_state hdomain hs false false) X Y).1 hgoalHolds
  obtain ⟨hadmits, chosen, -, happ⟩ := (usable_append_iff hdomain hs).1 husable
  have hisGoal : domain.isGoal s = .ok true := by
    rcases hreached with henv | hisGoal
    · rw [getElem?_envError hs] at henv
      exact absurd henv (by simp)
    · exact (hdomain.isGoal_append_iff hs).1 hisGoal
  exact ⟨.goal hadmits happ hisGoal, hisGoal⟩

omit hgoal in
/-- From a state without errors a set is forced by an applicable action all of whose reactions lead
there. -/
theorem Faithful.exists_of_mem_cpre {W : Set (List Bool)} (hs : s.length = domain.fluents.length)
    (hmem : s ++ flags mode false false ∈
      Game.cpre (agentGame encoding.automaton maxIterations) store space W) :
    ∃ chosen, domain.Admits s ∧ domain.Applicable chosen s ∧
      ∀ reaction, domain.Grounded chosen reaction →
        domain.result chosen reaction s ++ flags mode false false ∈ W := by
  obtain ⟨Y, hspaceHolds, hnext⟩ := mem_cpre_agentGame_iff.1 hmem
  have husable :=
    (h.holds_iff hspace (h.length_state hdomain hs false false) Y Y).1 (hspaceHolds Y)
  obtain ⟨hadmits, chosen, hY, happ⟩ := (usable_append_iff hdomain hs).1 husable
  refine ⟨chosen, hadmits, happ, fun reaction hgrounded => ?_⟩
  obtain ⟨X, hX⟩ := h.exists_successor_eq hdomain hs hY happ hgrounded
  exact hX ▸ hnext X

/-- A state without errors that is found in a number of iterations is won in as many steps. -/
theorem Faithful.winsWithin_of_mem_layer {k : Nat} (hs : s.length = domain.fluents.length)
    (hmem : s ++ flags mode false false ∈
      Game.layer (agentGame encoding.automaton maxIterations) store goal space k) :
    domain.WinsWithin k s := by
  induction k generalizing s with
  | zero => exact (h.winsWithin_zero_of_mem_base hdomain hgoal hs hmem).1
  | succ k ih =>
    obtain hmem | hcpre := hmem
    · exact (ih hs hmem).mono (Nat.le_succ k)
    · obtain ⟨chosen, hadmits, happ, hnext⟩ := h.exists_of_mem_cpre hdomain hspace hs hcpre
      exact .step hadmits happ fun reaction hgrounded =>
        ih ((domain.result_length _ _ _).trans hs) (hnext reaction hgrounded)

theorem Faithful.mem_layer_iff {k : Nat} (hs : s.length = domain.fluents.length) :
    s ++ flags mode false false ∈
        Game.layer (agentGame encoding.automaton maxIterations) store goal space k ↔
      domain.WinsWithin k s :=
  ⟨h.winsWithin_of_mem_layer hdomain hspace hgoal hs,
    fun hwins => h.mem_layer_of_winsWithin hdomain hspace hgoal hwins hs⟩

theorem Faithful.wins_of_mem_attractor (hs : s.length = domain.fluents.length)
    (hmem : s ++ flags mode false false ∈
      Game.attractor (agentGame encoding.automaton maxIterations) store goal space) :
    domain.Wins s := by
  let won : Set (List Bool) := {t | ∀ s : List Bool, s.length = domain.fluents.length →
    t = s ++ flags mode false false → domain.Wins s}
  suffices hle :
      Game.attractor (agentGame encoding.automaton maxIterations) store goal space ⊆ won from
    hle hmem s hs rfl
  refine OrderHom.lfp_le _ fun t ht s hs hts => ?_
  subst hts
  rcases ht with hbase | hcpre
  · exact (h.winsWithin_zero_of_mem_base hdomain hgoal hs hbase).1.wins
  · obtain ⟨chosen, hadmits, happ, hnext⟩ := h.exists_of_mem_cpre hdomain hspace hs hcpre
    refine .step hadmits happ fun reaction hgrounded => ?_
    exact hnext reaction hgrounded _ ((domain.result_length _ _ _).trans hs) rfl

theorem Faithful.mem_attractor_iff (hs : s.length = domain.fluents.length) :
    s ++ flags mode false false ∈
        Game.attractor (agentGame encoding.automaton maxIterations) store goal space ↔
      domain.Wins s :=
  ⟨h.wins_of_mem_attractor hdomain hspace hgoal hs,
    fun hwins => h.mem_attractor_of_wins hdomain hspace hgoal hwins hs⟩

end Attractor

/-- The space and the goal of the game are always built. What is solved then is the game of the
encoding. -/
theorem Faithful.delivers_solveAdversarial (hm : Stands registry manager)
    (h : Faithful registry manager.store domain mode encoding) (hdomain : domain.WellFormed)
    (hroom : ∀ store, room store → Diagram.HasRoom store) {maxIterations : Option Nat}
    {post : Solution → Manager → Prop}
    (hsolve : ∀ (later : Manager) (space goal : Edge), Stands registry later →
      Faithful registry later.store domain mode encoding →
      later.store.Denotes space (fun a =>
        Usable domain (encoding.automaton.stateOf a) (encoding.action a)) →
      later.store.Denotes goal (fun a =>
        Reached domain (encoding.automaton.stateOf a) (encoding.action a)) →
      Manager.Delivers room registry
        (liftM ((agentGame encoding.automaton maxIterations).solve .adversarial goal space))
        later post) :
    Manager.Delivers room registry (encoding.solveAdversarial maxIterations) manager post := by
  unfold solveAdversarial
  dsimp only
  have hspace := h.ensures_stateSpace hdomain hm.sound
  apply (delivers_lift hm (hspace.delivers.mono hroom)).bind
  intro space m₁ hm₁ hle₁ hspace
  have h₁ := h.mono hm.sound.toReduced hle₁.1 le_rfl
  apply (h₁.delivers_adversarialGoal hm₁ hdomain hroom h₁.finals hspace).bind
  intro goal m₂ hm₂ hle₂ hgoal
  have h₂ := h₁.mono hm₁.sound.toReduced hle₂.1 le_rfl
  have hgoal : m₂.store.Denotes goal fun a =>
      Reached domain (encoding.automaton.stateOf a) (encoding.action a) :=
    hgoal.congr fun a => ⟨fun ⟨husable, hreached⟩ => ⟨husable, hreached⟩,
      fun hreached => ⟨hreached.usable, hreached.reached⟩⟩
  exact hsolve m₂ space goal hm₂ h₂ (hspace.mono hm₁.sound.toReduced hle₂.1) hgoal

/-- The choices of the agent are not encoded by the variable zero. -/
theorem Faithful.outputs_ne_zero (h : Faithful registry store domain mode encoding)
    (maxIterations : Option Nat) :
    ∀ v ∈ (agentGame encoding.automaton maxIterations).protagonistVars, v ≠ 0 :=
  h.placed.outputs_fit.ne_zero

theorem Faithful.realizable_of_solved (h : Faithful registry store domain mode encoding)
    (hdomain : domain.WellFormed) (hs : store.Sound) {space goal : Edge}
    (hspace : store.Denotes space fun a =>
      Usable domain (encoding.automaton.stateOf a) (encoding.action a))
    (hgoal : store.Denotes goal fun a =>
      Reached domain (encoding.automaton.stateOf a) (encoding.action a))
    {maxIterations : Option Nat} {later : Store} {solution : Solution}
    (hsolved : Game.Solved store later (agentGame encoding.automaton maxIterations) goal space
      solution) :
    solution.realizable = true ↔ domain.Wins domain.initial := by
  have hclosed : (agentGame encoding.automaton maxIterations).Closed store goal space :=
    h.game_closed hs.toReduced hspace hgoal
  rw [hsolved.realizable_iff hclosed.arena]
  change encoding.automaton.initial ∈ _ ↔ _
  rw [h.initial_eq, initialState_eq]
  exact h.mem_attractor_iff hdomain hspace hgoal hdomain.initial_length

theorem Faithful.yields_solveAdversarial (hm : Stands registry manager)
    (h : Faithful registry manager.store domain mode encoding) (hdomain : domain.WellFormed)
    (maxIterations : Option Nat) :
    Manager.Yields registry (encoding.solveAdversarial maxIterations) manager fun solution _ =>
      solution.realizable = true ↔ domain.Wins domain.initial := by
  have hdelivers : Manager.Delivers (fun _ => False) registry
      (encoding.solveAdversarial maxIterations) manager fun solution _ =>
        solution.realizable = true ↔ domain.Wins domain.initial :=
    h.delivers_solveAdversarial hm hdomain (fun _ => False.elim)
      fun later space goal hlater h₂ hspace hgoal => by
        have hclosed : (agentGame encoding.automaton maxIterations).Closed later.store goal space :=
          h₂.game_closed hlater.sound.toReduced hspace hgoal
        refine (delivers_lift hlater (Game.delivers_solve (fun _ => False.elim) hlater.sound hclosed
          (fun _ _ _ => id) (h₂.outputs_ne_zero maxIterations))).weaken
            fun solution last _ _ hsolved => ?_
        exact h₂.realizable_of_solved hdomain hlater.sound hspace hgoal hsolved
  exact hdelivers.yields

/-- Compiled over any manager that has not run out of numbers for variables, and solved in it later,
a domain is realizable exactly if the agent wins from its initial state. -/
theorem realizable_iff_wins {parts : DomainParts} (hparts : Domain.ofParts parts = .ok domain)
    (hconsistent : Consistent domain) (hs : manager.store.Replayable)
    (hsize : manager.registry.size < UInt32.size) {compiled current later : Manager}
    (hcompile : (ofDomain domain mode).run.run manager = (.ok encoding, compiled))
    (hcurrent : current.store.Replayable) (hle : compiled ≤ current) {maxIterations : Option Nat}
    {solution : Solution}
    (hsolve : (encoding.solveAdversarial maxIterations).run.run current = (.ok solution, later)) :
    solution.realizable = true ↔ domain.Wins domain.initial := by
  obtain ⟨encoding', ordered, hm, hpaired, hfaithful, hcopies⟩ :=
    exists_faithful_copy hs hsize hconsistent hcompile hcurrent hle
  obtain ⟨solution', later', hsolve', -, -, hsolution⟩ :=
    (paced_solveAdversarial hpaired hcopies maxIterations).exists_answer hsolve
  rw [← hsolution.realizable_eq]
  exact (hfaithful.yields_solveAdversarial hm (Domain.wellFormed_of_ofParts hparts) maxIterations
    solution' later' hsolve').2.2

/-- The agent wants the fluent to hold. One action makes it hold, with either of its reactions; the
other action does nothing. -/
def switchParts : DomainParts where
  fluents := ["p"]
  initial := [false]
  actions :=
    [{ name := "a", agent := "g", reaction := "r", forbidden := .ofList [0], adds := .ofList [0] },
      { name := "b", agent := "g", reaction := "s", adds := .ofList [0] },
      { name := "c", agent := "h", reaction := "r" }]
  goal := .ofList [0]

/-- The domain of these parts. -/
def switch : Domain where
  fluents := switchParts.fluents
  initial := switchParts.initial
  actions := Domain.actionsByName switchParts.actions
  goal := switchParts.goal
  goalForbidden := ∅
  invariants := []

theorem switch_consistent : Consistent switch := by
  constructor
  · exact fun i _ => Std.TreeSet.not_mem_emptyc
  · intro action hmem i hi
    have hmem := Domain.mem_of_mem_actionsByName hmem
    simp only [switchParts, List.mem_cons, List.not_mem_nil, or_false] at hmem
    rcases hmem with rfl | rfl | rfl <;> exact absurd hi Std.TreeSet.not_mem_emptyc

/-- In a new manager the domain is compiled, solved and found realizable, and so the agent wins. -/
theorem switch_realizable_iff_wins :
    ∃ (manager compiled later : Manager) (encoding : Encoding) (solution : Solution),
      Manager.create ⟨1, 1⟩ {} = .ok manager ∧ Domain.ofParts switchParts = .ok switch ∧
      Consistent switch ∧ manager.store.Replayable ∧ manager.registry.size < UInt32.size ∧
      (ofDomain switch .invariant).run.run manager = (.ok encoding, compiled) ∧
      compiled.store.Replayable ∧
      (encoding.solveAdversarial none).run.run compiled = (.ok solution, later) ∧
      solution.realizable = true ∧ switch.Wins switch.initial := by
  let manager : Manager := { store := .blank }
  have hs : manager.store.Replayable := Store.replayable_blank
  have hsize : manager.registry.size < UInt32.size := by decide
  have hparts : Domain.ofParts switchParts = .ok switch := rfl
  have hok : answersWith (ofDomain switch .invariant) manager (fun encoding compiled =>
      answersWith (encoding.solveAdversarial none) compiled fun solution _ =>
        solution.realizable) = true := by
    set_option maxRecDepth 1500 in cbv
  obtain ⟨encoding, compiled, hcompile, hok⟩ := exists_run_of_answersWith hok
  obtain ⟨solution, later, hsolve, hrealizable⟩ := exists_run_of_answersWith hok
  have hcompiled := replayable_of_compiled hs hcompile
  have hwins := (realizable_iff_wins hparts switch_consistent hs hsize hcompile hcompiled le_rfl
    hsolve).1 hrealizable
  exact ⟨manager, compiled, later, encoding, solution, rfl, hparts, switch_consistent, hs, hsize,
    hcompile, hcompiled, hsolve, hrealizable, hwins⟩

end PlanningGame.Encoding
