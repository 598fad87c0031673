import Mathlib
import PlanningGame.Proofs.Game.Shortest
import PlanningGame.Proofs.Encoding.BestEffort
import PlanningGame.Proofs.Encoding.Tracking

/-!
# Goals given by automata

With an automaton over the fluents for a goal, the agent has to keep the automaton accepting in some
state that play comes to. The explicit game has pairs of a state of the domain and a state of the
automaton, which has read the state of the domain already. The game that is solved is played on the
composition of the encoding with the automaton. Its steps are those of the encoding, with the code
of the state of the automaton moved along, so what an action can force there is what it can force in
the encoding, and what the environment can help to is the same, too.
-/
namespace PlanningGame.Encoding

open Manager

/-- The letter of a state of the domain: the bits for errors are false. -/
def reading (domain : Domain) (mode : AgentErrorMode) (dfa : Dfa) (s : List Bool) : Nat :=
  dfa.letter (stateNames domain mode) (s ++ flags mode false false)

/-- The agent has a safe action in a state in which the automaton accepts, or can force play into
such a state. The automaton reads every state that play moves to. -/
inductive Enforces (domain : Domain) (mode : AgentErrorMode) (dfa : Dfa) : List Bool → Nat → Prop
  | accept {s : List Bool} {q : Nat} {chosen : String} (hadmits : domain.Admits s)
      (happ : domain.Applicable chosen s) (haccepts : dfa.accepts q = true) :
      Enforces domain mode dfa s q
  | step {s : List Bool} {q : Nat} {chosen : String} (hadmits : domain.Admits s)
      (happ : domain.Applicable chosen s)
      (hnext : ∀ reaction, domain.Grounded chosen reaction →
        Enforces domain mode dfa (domain.result chosen reaction s)
          (dfa.move q (reading domain mode dfa (domain.result chosen reaction s)))) :
      Enforces domain mode dfa s q

/-- With a number of the right reactions play comes to a state in which the agent has a safe action
and the automaton accepts. -/
inductive Attains (domain : Domain) (mode : AgentErrorMode) (dfa : Dfa) :
    Nat → List Bool → Nat → Prop
  | accept {k : Nat} {s : List Bool} {q : Nat} {chosen : String} (hadmits : domain.Admits s)
      (happ : domain.Applicable chosen s) (haccepts : dfa.accepts q = true) :
      Attains domain mode dfa k s q
  | step {k : Nat} {s : List Bool} {q : Nat} {chosen reaction : String}
      (hadmits : domain.Admits s) (happ : domain.Applicable chosen s)
      (hgrounded : domain.Grounded chosen reaction)
      (hnext : Attains domain mode dfa k (domain.result chosen reaction s)
        (dfa.move q (reading domain mode dfa (domain.result chosen reaction s)))) :
      Attains domain mode dfa (k + 1) s q

/-- What is wanted of a state of the encoding and a state of the automaton: that the automaton
accepts and the environment has kept to its rules, or against every environment that one of the two
is so. -/
def Wanted (domain : Domain) (dfa : Dfa) (attitude : Attitude) (s : List Bool) (q : Nat) : Prop :=
  match attitude with
  | .adversarial => s[domain.fluents.length]? = some true ∨ dfa.accepts q = true
  | .cooperative => ¬ s[domain.fluents.length]? = some true ∧ dfa.accepts q = true

variable {registry : Registry} {store : Store} {domain : Domain} {mode : AgentErrorMode}
  {encoding : Encoding} {dfa : Dfa} {codeVars : List Var} {arena : Automaton} {s : List Bool}
  {q : Nat} {X Y : Valuation}

theorem Attains.mono {j k : Nat} (h : Attains domain mode dfa j s q) (hle : j ≤ k) :
    Attains domain mode dfa k s q := by
  induction h generalizing k with
  | accept hadmits happ haccepts => exact .accept hadmits happ haccepts
  | step hadmits happ hgrounded _ ih =>
    obtain ⟨k, rfl⟩ := Nat.exists_eq_add_one_of_ne_zero (Nat.ne_zero_of_lt hle)
    exact .step hadmits happ hgrounded (ih (by omega))

@[simp] theorem attains_zero : Attains domain mode dfa 0 s q ↔
    domain.Admits s ∧ (∃ chosen, domain.Applicable chosen s) ∧ dfa.accepts q = true := by
  constructor
  · intro h
    cases h with
    | accept hadmits happ haccepts => exact ⟨hadmits, ⟨_, happ⟩, haccepts⟩
  · exact fun ⟨hadmits, ⟨_, happ⟩, haccepts⟩ => .accept hadmits happ haccepts

theorem attains_succ {k : Nat} : Attains domain mode dfa (k + 1) s q ↔
    Attains domain mode dfa k s q ∨ domain.Admits s ∧ ∃ chosen reaction,
      domain.Applicable chosen s ∧ domain.Grounded chosen reaction ∧
        Attains domain mode dfa k (domain.result chosen reaction s)
          (dfa.move q (reading domain mode dfa (domain.result chosen reaction s))) := by
  constructor
  · intro h
    cases h with
    | accept hadmits happ haccepts => exact .inl (.accept hadmits happ haccepts)
    | step hadmits happ hgrounded hnext => exact .inr ⟨hadmits, _, _, happ, hgrounded, hnext⟩
  · rintro (h | ⟨hadmits, _, _, happ, hgrounded, hnext⟩)
    · exact h.mono (Nat.le_succ k)
    · exact .step hadmits happ hgrounded hnext

/-- Any reaction that the right action has will do. -/
theorem Enforces.exists_attains (h : Enforces domain mode dfa s q) :
    ∃ k, Attains domain mode dfa k s q := by
  induction h with
  | accept hadmits happ haccepts => exact ⟨0, .accept hadmits happ haccepts⟩
  | step hadmits happ _ ih =>
    obtain ⟨reaction, hgrounded⟩ := happ.exists_grounded
    obtain ⟨k, hk⟩ := ih reaction hgrounded
    exact ⟨k + 1, .step hadmits happ hgrounded hk⟩

section Arena

variable (h : Tracks registry store domain mode encoding dfa codeVars arena)
include h

/-- What is read off a joint move: the state of the encoding, the choice of the agent and the state
of the automaton. -/
theorem Tracks.read_joint (hs : s.length = encoding.automaton.stateVars.length)
    (hq : q < dfa.size) :
    let a := arena.joint (s ++ Binary.encode q codeVars.length) X Y
    encoding.automaton.stateOf a = s ∧ encoding.action a = encoding.action Y ∧
      Binary.decode (codeVars.map a) = q := by
  intro a
  have hstate : arena.stateOf a = s ++ Binary.encode q codeVars.length := by
    refine h.closed.stateOf_joint ?_
    rw [h.stateVars_eq, List.length_append, List.length_append, hs, Binary.length_encode]
  rw [Automaton.stateOf, h.stateVars_eq, List.map_append] at hstate
  obtain ⟨hencoding, hcode⟩ := List.append_inj hstate (by rw [List.length_map, hs])
  refine ⟨hencoding, CodeTable.chosen_congr fun v hv => ?_, ?_⟩
  · exact h.closed.joint_of_mem_outputs (h.outputs_eq ▸ hv)
  · rw [hcode, Binary.decode_encode (hq.trans_le h.size_le)]

theorem Tracks.holds_iff {e : Edge} {P : List Bool → Option String → Nat → Prop}
    (he : store.Denotes e fun a =>
      P (encoding.automaton.stateOf a) (encoding.action a) (Binary.decode (codeVars.map a)))
    (hs : s.length = encoding.automaton.stateVars.length) (hq : q < dfa.size) :
    arena.Holds store e (s ++ Binary.encode q codeVars.length) X Y ↔
      P s (encoding.action Y) q := by
  obtain ⟨hstate, haction, hcode⟩ := h.read_joint (X := X) (Y := Y) hs hq
  rw [Automaton.Holds, he.eval_iff, hstate, haction, hcode]

/-- A step of the arena is a step of the encoding, and the automaton reads the new state. -/
theorem Tracks.successor_eq (hs : s.length = encoding.automaton.stateVars.length)
    (hq : q < dfa.size) :
    let next := encoding.automaton.successor store s X Y
    arena.successor store (s ++ Binary.encode q codeVars.length) X Y =
      next ++ Binary.encode (dfa.move q (dfa.letter (stateNames domain mode) next))
        codeVars.length := by
  unfold Automaton.successor Automaton.joint
  rw [h.inputs_eq, h.outputs_eq]
  exact h.map_eval_valuation hs hq _

theorem Tracks.move_lt (hq : q < dfa.size) (t : List Bool) :
    dfa.move q (dfa.letter (stateNames domain mode) t) < dfa.size :=
  (h.wellFormed.successor?_eq hq (dfa.letter_lt (stateNames domain mode) t)).2

theorem Tracks.over_of_denotes {e : Edge} {P : List Bool → Option String → Nat → Prop}
    (he : store.Denotes e fun a =>
      P (encoding.automaton.stateOf a) (encoding.action a) (Binary.decode (codeVars.map a))) :
    store.Over (arena.stateVars ++ arena.outputs) e := by
  refine he.over fun a b hab hP => ?_
  rw [h.stateVars_eq, h.outputs_eq] at hab
  have hstate : encoding.automaton.stateOf a = encoding.automaton.stateOf b :=
    stateOf_congr fun v hv => hab v (by simp [hv])
  have haction : encoding.action a = encoding.action b :=
    CodeTable.chosen_congr fun v hv => hab v (List.mem_append_right _ hv)
  have hcode : codeVars.map a = codeVars.map b :=
    List.map_congr_left fun v hv => hab v (by simp [hv])
  rwa [← hstate, ← haction, ← hcode]

theorem Tracks.game_closed {goal space : Edge} {maxIterations : Option Nat}
    {Q : List Bool → Nat → Prop}
    (hspace : store.Denotes space fun a =>
      Usable domain (encoding.automaton.stateOf a) (encoding.action a))
    (hgoal : store.Denotes goal fun a =>
      Usable domain (encoding.automaton.stateOf a) (encoding.action a) ∧
        Q (encoding.automaton.stateOf a) (Binary.decode (codeVars.map a))) (hr : store.Reduced) :
    (agentGame arena maxIterations).Closed store goal space where
  arena := h.closed
  goal_over := h.over_of_denotes (P := fun s name q => Usable domain s name ∧ Q s q) hgoal
  space_over := h.over_of_denotes (P := fun s name _ => Usable domain s name) hspace
  constraint_over := hr.over_one
  constraint_early _ := hr.over_one
  constraint_free _ := rfl

end Arena

section Attractor

variable {goal space : Edge} {maxIterations : Option Nat}
  (h : Tracks registry store domain mode encoding dfa codeVars arena) (hdomain : domain.WellFormed)
  (hspace : store.Denotes space fun a =>
    Usable domain (encoding.automaton.stateOf a) (encoding.action a))
  (hgoal : store.Denotes goal fun a =>
    Usable domain (encoding.automaton.stateOf a) (encoding.action a) ∧
      Wanted domain dfa .adversarial (encoding.automaton.stateOf a)
        (Binary.decode (codeVars.map a)))

include h hdomain hspace hgoal in
/-- The base has the states with a safe action in which the automaton accepts or the environment has
broken its rules. -/
theorem Tracks.mem_base_iff {envError : Bool} (hs : s.length = domain.fluents.length)
    (hq : q < dfa.size) :
    s ++ flags mode envError false ++ Binary.encode q codeVars.length ∈
        Game.base (agentGame arena maxIterations) store goal space ↔
      domain.Admits s ∧ (∃ chosen, domain.Applicable chosen s) ∧
        (envError = true ∨ dfa.accepts q = true) := by
  have hlength := h.faithful.length_state hdomain hs envError false
  have henv := getElem?_envError hs mode envError false
  have hspaces : ∀ X Y, arena.Holds store space _ X Y ↔ _ := fun X Y =>
    h.holds_iff (X := X) (Y := Y) (P := fun s name _ => Usable domain s name) hspace hlength hq
  have hgoals : ∀ X Y, arena.Holds store goal _ X Y ↔ _ := fun X Y =>
    h.holds_iff (X := X) (Y := Y) (P := fun s name q => Usable domain s name ∧
      Wanted domain dfa .adversarial s q) hgoal hlength hq
  constructor
  · rintro ⟨X, Y, -, hreached⟩
    obtain ⟨husable, hreached⟩ := (hgoals X Y).1 hreached
    obtain ⟨hadmits, chosen, -, happ⟩ := (usable_append_iff hdomain hs).1 husable
    rw [Wanted, henv, Option.some.injEq] at hreached
    exact ⟨hadmits, ⟨chosen, happ⟩, hreached⟩
  · rintro ⟨hadmits, ⟨chosen, happ⟩, hreached⟩
    obtain ⟨Y, hY⟩ := h.faithful.exists_action (exists_of_applicable happ)
    have husable : Usable domain (s ++ flags mode envError false) (encoding.action Y) :=
      (usable_append_iff hdomain hs).2 ⟨hadmits, chosen, hY, happ⟩
    refine ⟨Y, Y, (hspaces Y Y).2 husable, (hgoals Y Y).2 ⟨husable, ?_⟩⟩
    rwa [Wanted, henv, Option.some.injEq]

include h hspace in
/-- What an action forces in the arena it forces in the encoding, with the automaton moved along. -/
theorem Tracks.mem_cpre_iff {W : Set (List Bool)}
    (hs : s.length = encoding.automaton.stateVars.length) (hq : q < dfa.size) :
    s ++ Binary.encode q codeVars.length ∈
        Game.cpre (agentGame arena maxIterations) store space W ↔
      s ∈ Game.cpre (agentGame encoding.automaton maxIterations) store space
        {t | t ++ Binary.encode (dfa.move q (dfa.letter (stateNames domain mode) t))
          codeVars.length ∈ W} := by
  have hspaces : ∀ X Y, arena.Holds store space (s ++ Binary.encode q codeVars.length) X Y ↔
      encoding.automaton.Holds store space s X Y := fun X Y =>
    (h.holds_iff (P := fun s name _ => Usable domain s name) hspace hs hq).trans
      (h.faithful.holds_iff hspace hs X Y).symm
  have hsuccessors : ∀ X Y, arena.successor store (s ++ Binary.encode q codeVars.length) X Y = _ :=
    fun X Y => h.successor_eq (X := X) (Y := Y) hs hq
  simp only [mem_cpre_agentGame_iff, hspaces, hsuccessors]
  rfl

include h hdomain hspace hgoal

/-- The induction is on why the agent wins. Reactions that the action does not have lead to a state
with `env_err`, in which the same action reaches the goal. -/
theorem Tracks.mem_attractor_of_enforces (hwins : Enforces domain mode dfa s q)
    (hs : s.length = domain.fluents.length) (hq : q < dfa.size) :
    s ++ flags mode false false ++ Binary.encode q codeVars.length ∈
      Game.attractor (agentGame arena maxIterations) store goal space := by
  rw [← Game.base_union_cpre_attractor]
  induction hwins with
  | accept hadmits happ haccepts =>
    exact .inl ((h.mem_base_iff hdomain hspace hgoal hs hq).2 ⟨hadmits, ⟨_, happ⟩, .inr haccepts⟩)
  | @step s q chosen hadmits happ _ ih =>
    have hlength := h.faithful.length_state hdomain hs false false
    refine .inr ((h.mem_cpre_iff hspace hlength hq).2
      (h.faithful.mem_cpre hdomain hspace hs hadmits happ (fun reaction hgrounded => ?_) ?_))
    · rw [Set.mem_ofPred_eq, ← Game.base_union_cpre_attractor]
      exact ih reaction hgrounded ((domain.result_length _ _ _).trans hs) (h.move_lt hq _)
    · rw [Set.mem_ofPred_eq, ← Game.base_union_cpre_attractor]
      exact .inl ((h.mem_base_iff hdomain hspace hgoal hs (h.move_lt hq _)).2
        ⟨hadmits, ⟨chosen, happ⟩, .inl rfl⟩)

/-- The pairs from which the agent wins are closed under the steps of the attractor. -/
theorem Tracks.enforces_of_mem_attractor (hs : s.length = domain.fluents.length)
    (hq : q < dfa.size)
    (hmem : s ++ flags mode false false ++ Binary.encode q codeVars.length ∈
      Game.attractor (agentGame arena maxIterations) store goal space) :
    Enforces domain mode dfa s q := by
  let won : Set (List Bool) := {t | ∀ (s : List Bool) (q : Nat),
    s.length = domain.fluents.length → q < dfa.size →
      t = s ++ flags mode false false ++ Binary.encode q codeVars.length →
        Enforces domain mode dfa s q}
  suffices hle : Game.attractor (agentGame arena maxIterations) store goal space ⊆ won from
    hle hmem s q hs hq rfl
  refine OrderHom.lfp_le _ fun t ht s q hs hq hts => ?_
  subst hts
  rcases ht with hbase | hcpre
  · obtain ⟨hadmits, ⟨chosen, happ⟩, haccepts⟩ :=
      (h.mem_base_iff hdomain hspace hgoal hs hq).1 hbase
    exact .accept hadmits happ (haccepts.resolve_left (by simp))
  · rw [h.mem_cpre_iff hspace (h.faithful.length_state hdomain hs false false) hq] at hcpre
    obtain ⟨chosen, hadmits, happ, hnext⟩ :=
      h.faithful.exists_of_mem_cpre hdomain hspace hs hcpre
    refine .step hadmits happ fun reaction hgrounded => ?_
    exact hnext reaction hgrounded _ _ ((domain.result_length _ _ _).trans hs) (h.move_lt hq _) rfl

theorem Tracks.realizable_of_solved (hs : store.Sound) {later : Store} {solution : Solution}
    (hsolved : Game.Solved store later (agentGame arena maxIterations) goal space solution) :
    solution.realizable = true ↔ Enforces domain mode dfa domain.initial
      (dfa.move dfa.initial (reading domain mode dfa domain.initial)) := by
  have hclosed : (agentGame arena maxIterations).Closed store goal space :=
    h.game_closed hspace hgoal hs.toReduced
  have hinitial : arena.initial = domain.initial ++ flags mode false false ++
      Binary.encode (dfa.move dfa.initial (reading domain mode dfa domain.initial))
        codeVars.length := by
    rw [h.initial_eq, h.faithful.initial_eq, initialState_eq]
    rfl
  have hq := h.move_lt h.wellFormed.initial_lt (domain.initial ++ flags mode false false)
  rw [hsolved.realizable_iff hclosed.arena]
  change arena.initial ∈ _ ↔ _
  rw [hinitial]
  exact ⟨h.enforces_of_mem_attractor hdomain hspace hgoal hdomain.initial_length hq,
    fun hwins => h.mem_attractor_of_enforces hdomain hspace hgoal hwins hdomain.initial_length hq⟩

end Attractor

section Help

variable {goal space : Edge} {maxIterations : Option Nat} {k : Nat}
  (h : Tracks registry store domain mode encoding dfa codeVars arena) (hdomain : domain.WellFormed)
  (hspace : store.Denotes space fun a =>
    Usable domain (encoding.automaton.stateOf a) (encoding.action a))
  (hgoal : store.Denotes goal fun a =>
    Usable domain (encoding.automaton.stateOf a) (encoding.action a) ∧
      Wanted domain dfa .cooperative (encoding.automaton.stateOf a)
        (Binary.decode (codeVars.map a)))

include h hspace in
/-- Safe moves of the arena are those of the encoding, with the automaton moved along. -/
theorem Tracks.exists_move_iff {W : Set (List Bool)}
    (hs : s.length = encoding.automaton.stateVars.length) (hq : q < dfa.size) :
    (∃ X Y, arena.Holds store space (s ++ Binary.encode q codeVars.length) X Y ∧
        arena.successor store (s ++ Binary.encode q codeVars.length) X Y ∈ W) ↔
      ∃ X Y, encoding.automaton.Holds store space s X Y ∧
        encoding.automaton.successor store s X Y ∈
          {t | t ++ Binary.encode (dfa.move q (dfa.letter (stateNames domain mode) t))
            codeVars.length ∈ W} := by
  refine exists_congr fun X => exists_congr fun Y => and_congr ?_ ?_
  · exact (h.holds_iff (P := fun s name _ => Usable domain s name) hspace hs hq).trans
      (h.faithful.holds_iff hspace hs X Y).symm
  · rw [h.successor_eq hs hq]
    rfl

include h hgoal in
/-- Once the environment has broken its rules there is no more help. -/
theorem Tracks.not_mem_helped_of_envError (hs : s.length = encoding.automaton.stateVars.length)
    (henv : s[domain.fluents.length]? = some true) (hq : q < dfa.size) :
    s ++ Binary.encode q codeVars.length ∉
      Game.helped (agentGame arena maxIterations) store goal space k := by
  induction k generalizing s q with
  | zero =>
    rintro ⟨X, Y, -, hholds⟩
    have hreached := (h.holds_iff (P := fun s name q => Usable domain s name ∧
      Wanted domain dfa .cooperative s q) hgoal hs hq).1 hholds
    exact hreached.2.1 henv
  | succ k ih =>
    rintro (hmem | ⟨X, Y, -, hmem⟩)
    · exact ih hs henv hq hmem
    · change arena.successor store _ X Y ∈ _ at hmem
      rw [h.successor_eq hs hq] at hmem
      exact ih (Automaton.successor_length h.faithful.closed) (h.faithful.envError_kept hs henv)
        (h.move_lt hq _) hmem

include h hdomain hspace hgoal

/-- The pairs that are found with help are those from which the environment can help to make the
automaton accept. -/
theorem Tracks.mem_helped_iff_attains (hs : s.length = domain.fluents.length) (hq : q < dfa.size) :
    s ++ flags mode false false ++ Binary.encode q codeVars.length ∈
        Game.helped (agentGame arena maxIterations) store goal space k ↔
      Attains domain mode dfa k s q := by
  have hlength := h.faithful.length_state hdomain hs false false
  induction k generalizing s q with
  | zero =>
    have hspaces : ∀ X Y, arena.Holds store space _ X Y ↔ _ := fun X Y =>
      h.holds_iff (X := X) (Y := Y) (P := fun s name _ => Usable domain s name) hspace hlength hq
    have hgoals : ∀ X Y, arena.Holds store goal _ X Y ↔ _ := fun X Y =>
      h.holds_iff (X := X) (Y := Y) (P := fun s name q => Usable domain s name ∧
        Wanted domain dfa .cooperative s q) hgoal hlength hq
    rw [attains_zero]
    constructor
    · rintro ⟨X, Y, -, hholds⟩
      obtain ⟨husable, -, haccepts⟩ := (hgoals X Y).1 hholds
      obtain ⟨hadmits, chosen, -, happ⟩ := (usable_append_iff hdomain hs).1 husable
      exact ⟨hadmits, ⟨chosen, happ⟩, haccepts⟩
    · rintro ⟨hadmits, ⟨chosen, happ⟩, haccepts⟩
      obtain ⟨Y, hY⟩ := h.faithful.exists_action (exists_of_applicable happ)
      have husable : Usable domain (s ++ flags mode false false) (encoding.action Y) :=
        (usable_append_iff hdomain hs).2 ⟨hadmits, chosen, hY, happ⟩
      refine ⟨Y, Y, (hspaces Y Y).2 husable, (hgoals Y Y).2 ⟨husable, ?_, haccepts⟩⟩
      simp [getElem?_envError hs mode false false]
  | succ k ih =>
    refine (or_congr (ih hs hq hlength) ((h.exists_move_iff hspace hlength hq).trans
      (h.faithful.exists_safe_move_iff hdomain hspace (fun t ht henv => ?_) hs))).trans ?_
    · exact h.not_mem_helped_of_envError hgoal ht henv (h.move_lt hq t)
    have hnext : ∀ chosen reaction, domain.result chosen reaction s ++ flags mode false false ∈
        {t : List Bool | t ++ Binary.encode (dfa.move q (dfa.letter (stateNames domain mode) t))
          codeVars.length ∈ Game.helped (agentGame arena maxIterations) store goal space k} ↔
          Attains domain mode dfa k (domain.result chosen reaction s)
            (dfa.move q (reading domain mode dfa (domain.result chosen reaction s))) :=
      fun chosen reaction =>
        have hresult := (domain.result_length chosen reaction s).trans hs
        ih hresult (h.move_lt hq _) (h.faithful.length_state hdomain hresult false false)
    simp only [hnext]
    exact attains_succ.symm

end Help

section Solving

/-- The solution is the answer of the game on a composition with the automaton. -/
def SolvesTemporal (encoding : Encoding) (dfa : Dfa) (maxIterations : Option Nat)
    (attitude : Attitude) (later : Store) (arena : Automaton) (solution : Solution) : Prop :=
  ∃ registry origin codeVars goal space,
    origin.Sound ∧ Tracks registry origin encoding.domain encoding.mode encoding dfa codeVars arena ∧
    (origin.Denotes space fun a =>
      Usable encoding.domain (encoding.automaton.stateOf a) (encoding.action a)) ∧
    (origin.Denotes goal fun a =>
      Usable encoding.domain (encoding.automaton.stateOf a) (encoding.action a) ∧
        Wanted encoding.domain dfa attitude (encoding.automaton.stateOf a)
          (Binary.decode (codeVars.map a))) ∧
    Game.Answered origin later (agentGame arena maxIterations) attitude goal space solution

variable {maxIterations : Option Nat} {attitude : Attitude} {later : Store} {solution : Solution}

theorem SolvesTemporal.mono {last : Store} (hr : later.Reduced) (hle : later ≤ last)
    (h : SolvesTemporal encoding dfa maxIterations attitude later arena solution) :
    SolvesTemporal encoding dfa maxIterations attitude last arena solution := by
  obtain ⟨registry, origin, codeVars, goal, space, hs, htracks, hspace, hgoal, hanswer⟩ := h
  exact ⟨registry, origin, codeVars, goal, space, hs, htracks, hspace, hgoal, hanswer.mono hr hle⟩

theorem SolvesTemporal.satisfies_initial_iff
    (h : SolvesTemporal encoding dfa maxIterations attitude later arena solution) :
    arena.satisfies later solution.winningStates arena.initial = true ↔
      solution.realizable = true := by
  obtain ⟨registry, origin, codeVars, goal, space, -, htracks, -, -, hanswer⟩ := h
  exact hanswer.satisfies_initial_iff htracks.closed

/-- The arena starts when the automaton has read the initial state. -/
theorem Tracks.initial_eq_append (h : Tracks registry store domain mode encoding dfa codeVars arena) :
    arena.initial = domain.initial ++ flags mode false false ++
      Binary.encode (dfa.move dfa.initial (reading domain mode dfa domain.initial))
        codeVars.length := by
  rw [h.initial_eq, h.faithful.initial_eq, initialState_eq]
  rfl

theorem SolvesTemporal.realizable_iff (hdomain : encoding.domain.WellFormed)
    (h : SolvesTemporal encoding dfa maxIterations .adversarial later arena solution) :
    solution.realizable = true ↔
      Enforces encoding.domain encoding.mode dfa encoding.domain.initial
        (dfa.move dfa.initial (reading encoding.domain encoding.mode dfa encoding.domain.initial)) := by
  obtain ⟨registry, origin, codeVars, goal, space, hs, htracks, hspace, hgoal, hanswer⟩ := h
  exact htracks.realizable_of_solved hdomain hspace hgoal hs
    (hanswer.solved (htracks.game_closed hspace hgoal hs.toReduced))

theorem SolvesTemporal.realizable_iff_attains (hdomain : encoding.domain.WellFormed)
    (h : SolvesTemporal encoding dfa maxIterations .cooperative later arena solution) :
    solution.realizable = true ↔ ∃ k,
      Attains encoding.domain encoding.mode dfa k encoding.domain.initial
        (dfa.move dfa.initial (reading encoding.domain encoding.mode dfa encoding.domain.initial)) := by
  obtain ⟨registry, origin, codeVars, goal, space, hs, htracks, hspace, hgoal, hanswer⟩ := h
  have hclosed : (agentGame arena maxIterations).Closed origin goal space :=
    htracks.game_closed (Q := Wanted encoding.domain dfa .cooperative) hspace hgoal hs.toReduced
  rw [hanswer.realizable_iff_exists_helped hclosed rfl]
  refine exists_congr fun k => ?_
  change arena.initial ∈ _ ↔ _
  rw [htracks.initial_eq_append]
  exact htracks.mem_helped_iff_attains hdomain hspace hgoal hdomain.initial_length
    (htracks.move_lt htracks.wellFormed.initial_lt _)

/-- Two games on one composition are solved, the second only if the first is unrealizable. -/
structure SettlesTemporal (encoding : Encoding) (dfa : Dfa) (maxIterations : Option Nat)
    (later : Store) (result : BestEffort) : Prop where
  adversarial : SolvesTemporal encoding dfa maxIterations .adversarial later result.arena
    result.adversarial
  skipped : result.adversarial.realizable = true → result.cooperative = none
  cooperative : result.adversarial.realizable = false → ∃ solution,
    result.cooperative = some solution ∧
      SolvesTemporal encoding dfa maxIterations .cooperative later result.arena solution

/-- The initial state is won exactly if the first game is realizable. -/
theorem SettlesTemporal.region_initial_eq_winning_iff {result : BestEffort}
    (h : SettlesTemporal encoding dfa maxIterations later result) :
    result.region later result.arena.initial = .winning ↔
      result.adversarial.realizable = true := by
  rw [BestEffort.region_eq_winning_iff, h.adversarial.satisfies_initial_iff]

/-- The initial state is not lost exactly if one of the two games is realizable. -/
theorem SettlesTemporal.region_initial_ne_losing_iff {result : BestEffort}
    (h : SettlesTemporal encoding dfa maxIterations later result)
    (hdomain : encoding.domain.WellFormed) :
    result.region later result.arena.initial ≠ .losing ↔ ∃ k,
      Attains encoding.domain encoding.mode dfa k encoding.domain.initial
        (dfa.move dfa.initial (reading encoding.domain encoding.mode dfa encoding.domain.initial)) := by
  have hwinning := h.region_initial_eq_winning_iff
  cases hreal : result.adversarial.realizable with
  | true =>
    rw [hwinning.2 hreal]
    exact iff_of_true (by simp) ((h.adversarial.realizable_iff hdomain).1 hreal).exists_attains
  | false =>
    obtain ⟨solution, hsolution, hsolves⟩ := h.cooperative hreal
    have hcooperative : result.region later result.arena.initial = .cooperative ↔ _ :=
      BestEffort.region_eq_cooperative_iff
    simp only [hsolution, Option.some.injEq, exists_eq_left', h.adversarial.satisfies_initial_iff,
      hsolves.satisfies_initial_iff, hreal, Bool.false_eq_true, not_false_eq_true, true_and]
      at hcooperative
    rw [← hsolves.realizable_iff_attains hdomain, ← hcooperative]
    cases hregion : result.region later result.arena.initial with
    | winning => exact absurd (hwinning.1 hregion) (by simp [hreal])
    | cooperative => simp
    | losing => simp

theorem Faithful.yields_solveTemporal {current : Manager} (hs : current.store.Sound)
    (hsize : current.registry.size < UInt32.size)
    (h : Faithful current.registry current.store encoding.domain encoding.mode encoding)
    (hdomain : encoding.domain.WellFormed) (hdfa : dfa.WellFormed) (maxIterations : Option Nat) :
    PlanningGame.Yields (fun m : Manager => m.store.Sound)
      (encoding.solveTemporal dfa maxIterations) current fun result later =>
        SettlesTemporal encoding dfa maxIterations later.store result := by
  have hnoroom : ∀ store : Store, False → Diagram.HasRoom store := fun _ => False.elim
  unfold solveTemporal
  refine (Dfa.yields_symbolic hs hdfa hsize).bind
    fun monitor m₁ hs₁ hle₁ ⟨letterVars, hsymbolic, hid, hsize₁⟩ => ?_
  have h₁ := h.mono hs.toReduced hle₁.1 hle₁.2
  have hblock : encoding.automaton.block ≠ monitor.block :=
    hid ▸ Registry.ne_nextBlock h.placed.block
  refine (h₁.yields_compose hs₁ hsymbolic hdfa hsize₁ hblock).bind
    fun arena m₂ hs₂ hle₂ htracks => ?_
  have hr₂ := hs₂.toReduced
  have hfinals := hsymbolic.finals.mono hs₁.toReduced hle₂.1
  -- no more variables are created
  suffices key : Manager.Yields m₂.registry _ m₂ fun result later =>
      SettlesTemporal encoding dfa maxIterations later.store result from
    yields_of_stands key fun _ _ _ _ h => h
  have hm₂ : Stands m₂.registry m₂ := ⟨hs₂, rfl⟩
  refine (yields_lift hm₂ (htracks.faithful.ensures_stateSpace hdomain hs₂).yields).bind
    fun space m₃ hm₃ hle₃ hspace => ?_
  have hfinals := hfinals.mono hr₂ hle₃.1
  have htracks₃ := htracks.mono hr₂ hle₃.1
  dsimp only
  refine (htracks₃.faithful.delivers_adversarialGoal hm₃ hdomain hnoroom hfinals
    hspace).yields.bind fun goal m₄ hm₄ hle₄ hgoal => ?_
  have htracks₄ := htracks₃.mono hm₃.sound.toReduced hle₄.1
  have hspace := hspace.mono hm₃.sound.toReduced hle₄.1
  have hfinals := hfinals.mono hm₃.sound.toReduced hle₄.1
  have hclosed : (agentGame arena maxIterations).Closed m₄.store goal space :=
    htracks₄.game_closed (Q := Wanted encoding.domain dfa .adversarial) hspace hgoal
      hm₄.sound.toReduced
  refine (yields_lift hm₄ (Game.yields_search hm₄.sound hclosed.readable)).bind
    fun adversarial m₅ hm₅ hle₅ hanswer => ?_
  have hfirst : SolvesTemporal encoding dfa maxIterations .adversarial m₅.store arena adversarial :=
    ⟨_, _, _, goal, space, hm₄.sound, htracks₄, hspace, hgoal, hanswer⟩
  have hrest : ∀ (cooperative : Option Solution) (message : Unit → String) (m : Manager),
      StandsIn Store.Sound m₂.registry m → m₅ ≤ m →
      (adversarial.realizable = true → cooperative = none) →
      (adversarial.realizable = false → ∃ solution, cooperative = some solution ∧
        SolvesTemporal encoding dfa maxIterations .cooperative m.store arena solution) →
      Manager.Yields m₂.registry (do
        Manager.note .info message
        return ⟨arena, adversarial, cooperative⟩) m fun result later =>
          SettlesTemporal encoding dfa maxIterations later.store result :=
    fun cooperative message m hm hle hskipped hcooperative =>
      yields_note_bind hm _ _ fun later hlater hle' => yields_pure hlater
        { adversarial := hfirst.mono hm₅.sound.toReduced (hle.trans hle').1
          skipped := hskipped
          cooperative := fun hfalse => (hcooperative hfalse).imp fun _ h =>
            ⟨h.1, h.2.mono hm.sound.toReduced hle'.1⟩ }
  split
  · next hrealizable =>
    exact hrest none _ m₅ hm₅ le_rfl (fun _ => rfl) fun hfalse => by simp_all
  · next hunrealizable =>
    have htracks₅ := htracks₄.mono hm₄.sound.toReduced hle₅.1
    have hspace := hspace.mono hm₄.sound.toReduced hle₅.1
    have hfinals := hfinals.mono hm₄.sound.toReduced hle₅.1
    refine (htracks₅.faithful.delivers_cooperativeGoal_of_denotes hm₅ hdomain hnoroom hfinals
      hspace).yields.bind fun goal m₆ hm₆ hle₆ hgoal => ?_
    have htracks₆ := htracks₅.mono hm₅.sound.toReduced hle₆.1
    have hspace := hspace.mono hm₅.sound.toReduced hle₆.1
    have hclosed : (agentGame arena maxIterations).Closed m₆.store goal space :=
      htracks₆.game_closed (Q := Wanted encoding.domain dfa .cooperative) hspace hgoal
        hm₆.sound.toReduced
    refine (yields_lift hm₆ (Game.yields_search hm₆.sound hclosed.readable)).bind
      fun solution m₇ hm₇ hle₇ hanswer => ?_
    have hsecond : SolvesTemporal encoding dfa maxIterations .cooperative m₇.store arena solution :=
      ⟨_, _, _, goal, space, hm₆.sound, htracks₆, hspace, hgoal, hanswer⟩
    exact hrest (some solution) _ m₇ hm₇ (hle₆.trans hle₇)
      (fun htrue => absurd htrue hunrealizable) fun _ => ⟨solution, rfl, hsecond⟩

end Solving

/-- What is solved first is the game of a composition with the automaton. -/
theorem Faithful.temporal_realizable_iff {current later : Manager} (hs : current.store.Sound)
    (hsize : current.registry.size < UInt32.size)
    (h : Faithful current.registry current.store domain mode encoding)
    (hdomain : domain.WellFormed) (hdfa : dfa.WellFormed) {maxIterations : Option Nat}
    {result : BestEffort}
    (hrun : (encoding.solveTemporal dfa maxIterations).run.run current = (.ok result, later)) :
    result.adversarial.realizable = true ↔ Enforces domain mode dfa domain.initial
      (dfa.move dfa.initial (reading domain mode dfa domain.initial)) := by
  obtain rfl := h.domain_eq
  obtain rfl := h.mode_eq
  obtain ⟨-, -, hresult⟩ :=
    h.yields_solveTemporal hs hsize hdomain hdfa maxIterations result later hrun
  exact hresult.adversarial.realizable_iff hdomain

/-- Compiled over any manager that has not run out of numbers for variables, and solved later for an
automaton over its fluents, a domain is realizable against every environment exactly if the agent
enforces that the automaton accepts. It starts when the automaton has read the initial state. -/
theorem realizable_iff_enforces {parts : DomainParts} (hparts : Domain.ofParts parts = .ok domain)
    (hconsistent : Consistent domain) {manager compiled current later : Manager}
    (hs : manager.store.Replayable) (hsize : manager.registry.size < UInt32.size)
    (hcompile : (ofDomain domain mode).run.run manager = (.ok encoding, compiled))
    (hcurrent : current.store.Replayable) (hcurrentSize : current.registry.size < UInt32.size)
    (hle : compiled ≤ current) {given : Dfa} (hdfa : given.checked = .ok dfa)
    {maxIterations : Option Nat} {result : BestEffort}
    (hsolve : (encoding.solveTemporal dfa maxIterations).run.run current = (.ok result, later)) :
    result.adversarial.realizable = true ↔ Enforces domain mode dfa domain.initial
      (dfa.move dfa.initial (reading domain mode dfa domain.initial)) := by
  obtain ⟨encoding', ordered, hm, hpaired, hfaithful, hcopies⟩ :=
    exists_faithful_copy hs hsize hconsistent hcompile hcurrent hle
  obtain ⟨result', later', hsolve', -, -, hresult⟩ :=
    (paced_solveTemporal hpaired hcopies dfa maxIterations).exists_answer hsolve
  rw [← hresult.adversarial.realizable_eq]
  rw [← hm.registry_eq] at hfaithful hcurrentSize
  exact hfaithful.temporal_realizable_iff hm.sound hcurrentSize
    (Domain.wellFormed_of_ofParts hparts) (Dfa.wellFormed_of_checked hdfa) hsolve'

/-- In a new manager the switch is compiled and solved for the automaton that waits for it, and so
the agent enforces that it is on in some state. -/
theorem switch_enforces :
    ∃ (manager compiled later : Manager) (encoding : Encoding) (result : BestEffort),
      Manager.create ⟨1, 1⟩ {} = .ok manager ∧ Domain.ofParts switchParts = .ok switch ∧
      Consistent switch ∧ manager.store.Replayable ∧ manager.registry.size < UInt32.size ∧
      (ofDomain switch .invariant).run.run manager = (.ok encoding, compiled) ∧
      compiled.store.Replayable ∧ compiled.registry.size < UInt32.size ∧
      (Dfa.eventually "p").checked = .ok (Dfa.eventually "p") ∧
      (encoding.solveTemporal (Dfa.eventually "p") none).run.run compiled = (.ok result, later) ∧
      result.adversarial.realizable = true ∧
      Enforces switch .invariant (Dfa.eventually "p") switch.initial ((Dfa.eventually "p").move
        (Dfa.eventually "p").initial
          (reading switch .invariant (Dfa.eventually "p") switch.initial)) := by
  let manager : Manager := { store := .blank }
  have hs : manager.store.Replayable := Store.replayable_blank
  have hsize : manager.registry.size < UInt32.size := by decide
  have hparts : Domain.ofParts switchParts = .ok switch := rfl
  have hdfa : (Dfa.eventually "p").checked = .ok (Dfa.eventually "p") := by cbv
  have hok : answersWith (ofDomain switch .invariant) manager (fun encoding compiled =>
      answersWith (encoding.solveTemporal (Dfa.eventually "p") none) compiled fun result _ =>
        compiled.registry.size.ble 10 && result.adversarial.realizable) = true := by
    set_option maxRecDepth 1500 in cbv
  obtain ⟨encoding, compiled, hcompile, hok⟩ := exists_run_of_answersWith hok
  obtain ⟨result, later, hsolve, hok⟩ := exists_run_of_answersWith hok
  obtain ⟨hsmall, hrealizable⟩ := Bool.and_eq_true_iff.1 hok
  have hcompiledSize : compiled.registry.size < UInt32.size :=
    (Nat.le_of_ble_eq_true hsmall).trans_lt (by decide)
  have hcompiled := replayable_of_compiled hs hcompile
  have hwins := (realizable_iff_enforces hparts switch_consistent hs hsize hcompile hcompiled
    hcompiledSize le_rfl hdfa hsolve).1 hrealizable
  exact ⟨manager, compiled, later, encoding, result, rfl, hparts, switch_consistent, hs, hsize,
    hcompile, hcompiled, hcompiledSize, hdfa, hsolve, hrealizable, hwins⟩

end PlanningGame.Encoding
