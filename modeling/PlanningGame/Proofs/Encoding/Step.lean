import Mathlib
import PlanningGame.Proofs.Encoding.Assembly

/-!
# One step of an encoded domain

A state of an encoding is a state of the domain followed by the error bits. In a state without
errors, an applicable action with a reaction that it has leads to the state that the domain says;
any other choice of the environment changes nothing but the bit `env_err`.
-/
namespace PlanningGame.Encoding

variable {registry : Registry} {store later : Store} {domain : Domain} {mode : AgentErrorMode}
  {encoding : Encoding} {s rest : List Bool} {X Y : Valuation}

/-- The error bits of a state. -/
def flags : AgentErrorMode → Bool → Bool → List Bool
  | .invariant, envError, _ => [envError]
  | .errorBit, envError, agentError => [envError, agentError]

theorem initialState_eq (domain : Domain) (mode : AgentErrorMode) :
    initialState domain mode = domain.initial ++ flags mode false false := by
  unfold initialState stateNames
  cases mode <;> simp [flags, List.replicate]

theorem getElem?_envError (hs : s.length = domain.fluents.length) (mode : AgentErrorMode)
    (envError agentError : Bool) :
    (s ++ flags mode envError agentError)[domain.fluents.length]? = some envError := by
  rw [List.getElem?_append_right hs.le, hs, Nat.sub_self]
  cases mode <;> rfl

theorem getElem?_agentError (hs : s.length = domain.fluents.length) (mode : AgentErrorMode)
    (envError : Bool) :
    ¬ (s ++ flags mode envError false)[domain.fluents.length + 1]? = some true := by
  rw [List.getElem?_append_right (by omega), hs, Nat.add_sub_cancel_left]
  cases mode <;> simp [flags]

section Closed

theorem Faithful.mono {registry' : Registry} (h : Faithful registry store domain mode encoding)
    (hr : store.Founded) (hle : store ≤ later) (hregistry : registry ≤ registry') :
    Faithful registry' later domain mode encoding :=
  { h with
    placed := h.placed.mono hregistry
    next := h.next.mono hr hle
    finals := h.finals.mono hr hle
    invariant := h.invariant.mono hr hle
    agentMutex := h.agentMutex.mono hr hle
    agentPrecondition := h.agentPrecondition.mono hr hle
    envMutex := h.envMutex.mono hr hle
    envPrecondition := h.envPrecondition.mono hr hle
    predicates := h.predicates.imp fun _ _ hentry => ⟨hentry.1, hentry.2.mono hr hle⟩ }

theorem stateOf_congr {arena : Automaton} {a b : Valuation} (h : ∀ v ∈ arena.stateVars, a v = b v) :
    arena.stateOf a = arena.stateOf b :=
  List.map_congr_left h

theorem Faithful.closed (h : Faithful registry store domain mode encoding) :
    encoding.automaton.Closed store := by
  refine ⟨h.initial_length, h.next_length, h.placed.nodup, fun e he => ?_⟩
  obtain ⟨bit, -, hbit⟩ := h.next.exists_denotes e he
  refine hbit.over fun a b hab hnext => ?_
  have hstate : encoding.automaton.stateOf a = encoding.automaton.stateOf b :=
    stateOf_congr fun v hv => hab v (List.mem_append_left _ hv)
  have hreaction : encoding.reaction a = encoding.reaction b := CodeTable.chosen_congr
    fun v hv => hab v (List.mem_append_right _ (List.mem_append_left _ hv))
  have haction : encoding.action a = encoding.action b := CodeTable.chosen_congr
    fun v hv => hab v (List.mem_append_right _ (List.mem_append_right _ hv))
  rwa [← hstate, ← hreaction, ← haction]

theorem Faithful.action_joint (h : Faithful registry store domain mode encoding) :
    encoding.action (encoding.automaton.joint s X Y) = encoding.action Y :=
  CodeTable.chosen_congr fun _ hv => h.closed.joint_of_mem_outputs hv

theorem Faithful.reaction_joint (h : Faithful registry store domain mode encoding) :
    encoding.reaction (encoding.automaton.joint s X Y) = encoding.reaction X :=
  CodeTable.chosen_congr fun _ hv => h.closed.joint_of_mem_inputs hv

/-- Every action of the domain can be chosen. -/
theorem Faithful.exists_action (h : Faithful registry store domain mode encoding) {name : String}
    (hname : ∃ action ∈ domain.actionList, action.agent = name) :
    ∃ Y, encoding.action Y = some name := by
  unfold action
  rw [h.agentNames_eq]
  exact h.placed.outputs_fit.exists_chosen
    (CodeTable.mem_sortedNames_iff.2 (List.mem_map.2 hname))

/-- Every reaction of the domain can be answered. -/
theorem Faithful.exists_reaction (h : Faithful registry store domain mode encoding)
    {name : String} (hname : ∃ action ∈ domain.actionList, action.reaction = name) :
    ∃ X, encoding.reaction X = some name := by
  unfold reaction
  rw [h.reactionNames_eq]
  exact h.placed.inputs_fit.exists_chosen
    (CodeTable.mem_sortedNames_iff.2 (List.mem_map.2 hname))

end Closed

section Successor

open Classical in
/-- The next state has one bit for each condition. -/
theorem Faithful.successor_eq (h : Faithful registry store domain mode encoding)
    (hs : s.length = encoding.automaton.stateVars.length) :
    encoding.automaton.successor store s X Y = (Bit.all domain mode).map fun bit =>
      decide (bit.Next domain s (encoding.action Y) (encoding.reaction X)) := by
  have key := h.next.map_eval (encoding.automaton.joint s X Y)
  rw [h.action_joint, h.reaction_joint, h.closed.stateOf_joint hs] at key
  exact key

theorem any_pairsOf_iff {name reaction : String} {p : Action → Bool} :
    (domain.pairsOf name reaction).any p = true ↔
      ∃ action ∈ domain.actionList, p action = true ∧
        Selected (some name) (some reaction) action := by
  rw [List.any_eq_true]
  refine exists_congr fun action => ?_
  rw [Domain.mem_pairsOf_iff, Selected, Option.some.injEq, Option.some.injEq]
  tauto

open Classical in
theorem map_next_of_selected (hs : s.length = domain.fluents.length) (name reaction : String) :
    ((List.range domain.fluents.length).map fun i => decide
      ((Bit.fluent i).Next domain (s ++ rest) (some name) (some reaction))) =
      domain.result name reaction s := by
  refine List.ext_getElem? fun i => ?_
  rw [Domain.getElem?_result, List.getElem?_map]
  by_cases hi : i < domain.fluents.length
  · have hlt : i < s.length := hs ▸ hi
    rw [List.getElem?_range hi, List.getElem?_eq_getElem hlt, Option.map_some, Option.map_some,
      Option.some.injEq, Bool.eq_iff_iff, decide_eq_true_iff, Bit.Next,
      List.getElem?_append_left hlt, List.getElem?_eq_getElem hlt, ← any_pairsOf_iff,
      ← any_pairsOf_iff]
    simp only [Option.some.injEq, Bool.or_eq_true, Bool.and_eq_true, Bool.not_eq_true',
      Bool.not_eq_true]
    exact or_comm
  · rw [List.getElem?_eq_none (by simpa using hi), List.getElem?_eq_none (by omega)]
    rfl

open Classical in
theorem map_next_of_not_selected (hs : s.length = domain.fluents.length)
    {name reaction : Option String}
    (hnone : ¬ ∃ action ∈ domain.actionList, Selected name reaction action) :
    ((List.range domain.fluents.length).map fun i => decide
      ((Bit.fluent i).Next domain (s ++ rest) name reaction)) = s := by
  refine List.ext_getElem (by simp [hs]) fun i hi hlt => ?_
  have hunselected : ∀ p : Action → Bool,
      ¬ ∃ action ∈ domain.actionList, p action = true ∧ Selected name reaction action :=
    fun p ⟨action, hmem, _, hselected⟩ => hnone ⟨action, hmem, hselected⟩
  rw [List.getElem_map, List.getElem_range, Bool.eq_iff_iff, decide_eq_true_iff, Bit.Next,
    List.getElem?_append_left hlt, List.getElem?_eq_getElem hlt]
  simp only [hunselected, not_false_eq_true, and_true, or_false, Option.some.injEq]

open Classical in
/-- The error bits after an applicable action in a state without errors. -/
theorem map_next_errors {chosen : String} {reaction : Option String} {illegal : Bool}
    (henv : s[domain.fluents.length]? = some false)
    (hagent : ¬ s[domain.fluents.length + 1]? = some true) (happ : domain.Applicable chosen s)
    (hillegal : illegal = true ↔
      ¬ ∃ action ∈ domain.actionList, Selected (some chosen) reaction action) :
    ((Bit.envError :: Bit.errors mode).map fun bit =>
      decide (bit.Next domain s (some chosen) reaction)) = flags mode illegal false := by
  have hnext : decide (Bit.Next domain s (some chosen) reaction .envError) = illegal := by
    rw [Bool.eq_iff_iff, decide_eq_true_iff, hillegal, Bit.Next, henv]
    simp
  have hkept : decide (Bit.Next domain s (some chosen) reaction .agentError) = false :=
    decide_eq_false fun hnext => hnext.elim hagent fun hillegal => hillegal ⟨chosen, rfl, happ⟩
  cases mode with
  | invariant => simp [Bit.errors, flags, hnext]
  | errorBit => simp [Bit.errors, flags, hnext, hkept]

variable (h : Faithful registry store domain mode encoding) (hdomain : domain.WellFormed)
  (hs : s.length = domain.fluents.length)
include h hdomain hs

theorem Faithful.length_state (envError agentError : Bool) :
    (s ++ flags mode envError agentError).length = encoding.automaton.stateVars.length := by
  rw [← h.initial_length, h.initial_eq, initialState_eq, List.length_append, List.length_append,
    hs, hdomain.initial_length]
  cases mode <;> rfl

open Classical in
theorem Faithful.successor_state {chosen : String} {illegal : Bool}
    (haction : encoding.action Y = some chosen) (happ : domain.Applicable chosen s)
    (hillegal : illegal = true ↔ ¬ ∃ action ∈ domain.actionList,
      Selected (some chosen) (encoding.reaction X) action) :
    encoding.automaton.successor store (s ++ flags mode false false) X Y =
      ((List.range domain.fluents.length).map fun i => decide ((Bit.fluent i).Next domain
        (s ++ flags mode false false) (some chosen) (encoding.reaction X))) ++
      flags mode illegal false := by
  have happ : domain.Applicable chosen (s ++ flags mode false false) :=
    (hdomain.applicable_append_iff hs).2 happ
  rw [h.successor_eq (h.length_state hdomain hs false false), haction, Bit.all, List.append_assoc,
    List.map_append, List.map_map, List.singleton_append, map_next_errors
      (getElem?_envError hs mode false false) (getElem?_agentError hs mode false) happ hillegal]
  rfl

/-- A reaction that the action has leads to the state that the domain says. -/
theorem Faithful.successor_of_grounded {chosen reaction : String}
    (haction : encoding.action Y = some chosen) (happ : domain.Applicable chosen s)
    (hreaction : encoding.reaction X = some reaction)
    (hgrounded : domain.Grounded chosen reaction) :
    encoding.automaton.successor store (s ++ flags mode false false) X Y =
      domain.result chosen reaction s ++ flags mode false false := by
  obtain ⟨action, hmem, hagent, hanswer⟩ := hgrounded
  have hselected : ∃ action ∈ domain.actionList,
      Selected (some chosen) (encoding.reaction X) action :=
    ⟨action, hmem, congrArg some hagent.symm, hreaction.trans (congrArg some hanswer.symm)⟩
  have hillegal : false = true ↔ ¬ ∃ action ∈ domain.actionList,
      Selected (some chosen) (encoding.reaction X) action :=
    ⟨fun hfalse => absurd hfalse (by simp), fun hnone => absurd hselected hnone⟩
  rw [h.successor_state hdomain hs haction happ hillegal, hreaction, map_next_of_selected hs]

/-- Any other reaction, and a code that stands for no reaction, only sets `env_err`. -/
theorem Faithful.successor_of_not_selected {chosen : String}
    (haction : encoding.action Y = some chosen) (happ : domain.Applicable chosen s)
    (hnone : ¬ ∃ action ∈ domain.actionList,
      Selected (some chosen) (encoding.reaction X) action) :
    encoding.automaton.successor store (s ++ flags mode false false) X Y =
      s ++ flags mode true false := by
  have hillegal : true = true ↔ ¬ ∃ action ∈ domain.actionList,
      Selected (some chosen) (encoding.reaction X) action := ⟨fun _ => hnone, fun _ => rfl⟩
  rw [h.successor_state hdomain hs haction happ hillegal, map_next_of_not_selected hs hnone]

/-- An applicable action leads to what the domain says for a reaction that it has, or the state
stays and `env_err` is set. -/
theorem Faithful.successor_cases {chosen : String} (haction : encoding.action Y = some chosen)
    (happ : domain.Applicable chosen s) (X : Valuation) :
    (∃ reaction, domain.Grounded chosen reaction ∧
      encoding.automaton.successor store (s ++ flags mode false false) X Y =
        domain.result chosen reaction s ++ flags mode false false) ∨
    encoding.automaton.successor store (s ++ flags mode false false) X Y =
      s ++ flags mode true false := by
  by_cases hselected : ∃ action ∈ domain.actionList,
      Selected (some chosen) (encoding.reaction X) action
  · obtain ⟨action, hmem, hagent, hreaction⟩ := hselected
    have hgrounded : domain.Grounded chosen action.reaction :=
      ⟨action, hmem, (Option.some.inj hagent).symm, rfl⟩
    exact .inl ⟨_, hgrounded,
      h.successor_of_grounded hdomain hs haction happ hreaction hgrounded⟩
  · exact .inr (h.successor_of_not_selected hdomain hs haction happ hselected)

/-- Each reaction that an action has can be given. -/
theorem Faithful.exists_successor_eq {chosen reaction : String}
    (haction : encoding.action Y = some chosen) (happ : domain.Applicable chosen s)
    (hgrounded : domain.Grounded chosen reaction) :
    ∃ X, encoding.automaton.successor store (s ++ flags mode false false) X Y =
      domain.result chosen reaction s ++ flags mode false false := by
  obtain ⟨X, hX⟩ := h.exists_reaction (hgrounded.imp fun _ h => ⟨h.1, h.2.2⟩)
  exact ⟨X, h.successor_of_grounded hdomain hs haction happ hX hgrounded⟩

end Successor

end PlanningGame.Encoding
