import Mathlib
import PlanningGame.Stepper
import PlanningGame.Proofs.Encoding.OwnVariables
import PlanningGame.Proofs.Encoding.Transition
import PlanningGame.Proofs.Diagram.Ascending

/-!
# Reports of steps

A step of an encoded domain is refused if a number does not fit its variables or the state has
another length, and is reported otherwise: the condition for a legal choice was worked out when the
domain was encoded, so a step adds no node and cannot fail in another way. What a report says is
what the domain says, also for numbers that stand for no name.
-/
namespace PlanningGame

namespace CodeTable

variable {names : List String} {name : String} {i : Nat}

theorem pairwise_sortedNames (names : List String) : (sortedNames names).Pairwise (· < ·) :=
  have key := Std.TreeSet.ordered_toList (t := Std.TreeSet.ofList names)
  key.imp fun h => compareOfLessAndEq_eq_lt.1 h

/-- In an increasing list, the place of a name is the number of names before it. -/
theorem ncard_lt_getElem (h : names.Pairwise (· < ·)) (hi : i < names.length) :
    {other | other ∈ names ∧ other < names[i]}.ncard = i := by
  have hlt {j k : Nat} (hj : j < names.length) (hk : k < names.length) (hjk : j < k) :
      names[j] < names[k] := List.pairwise_iff_getElem.1 h j k hj hk hjk
  have hset : {other | other ∈ names ∧ other < names[i]} = ↑(names.take i).toFinset := by
    ext other
    rw [Set.mem_ofPred_eq, List.coe_toFinset, Set.mem_ofPred_eq, List.mem_take_iff_getElem]
    constructor
    · rintro ⟨hmem, hless⟩
      obtain ⟨j, hj, rfl⟩ := List.mem_iff_getElem.1 hmem
      refine ⟨j, lt_min ?_ hj, rfl⟩
      by_contra hij
      obtain rfl | hij := (not_lt.1 hij).eq_or_lt
      · exact lt_irrefl _ hless
      · exact lt_asymm hless (hlt hi hj hij)
    · rintro ⟨j, hj, rfl⟩
      obtain ⟨hji, hj⟩ := lt_min_iff.1 hj
      exact ⟨List.getElem_mem hj, hlt hj hi hji⟩
  have hnodup : (names.take i).Nodup := (h.imp fun h => h.ne).sublist (List.take_sublist _ _)
  rw [hset, Set.ncard_coe_finset, List.toFinset_card_of_nodup hnodup, List.length_take,
    min_eq_left hi.le]

theorem getElem?_sortedNames_iff :
    (sortedNames names)[i]? = some name ↔
      name ∈ names ∧ {other | other ∈ names ∧ other < name}.ncard = i := by
  have hsorted := pairwise_sortedNames names
  have hmem : ∀ other, other ∈ names ↔ other ∈ sortedNames names :=
    fun _ => mem_sortedNames_iff.symm
  simp only [hmem]
  constructor
  · intro hname
    obtain ⟨hi, rfl⟩ := List.getElem?_eq_some_iff.1 hname
    exact ⟨List.getElem_mem hi, ncard_lt_getElem hsorted hi⟩
  · rintro ⟨hmem, hcard⟩
    obtain ⟨j, hj, rfl⟩ := List.mem_iff_getElem.1 hmem
    rw [← hcard, ncard_lt_getElem hsorted hj, List.getElem?_eq_getElem hj]

end CodeTable

namespace Domain

variable {domain : Domain} {s : List Bool}

/-- A part of the pairs has this name, and this many names of that part come before it. -/
def Numbers (domain : Domain) (part : Action → String) (name : String) (number : Nat) : Prop :=
  (∃ pair ∈ domain.actionList, part pair = name) ∧
    {other | (∃ pair ∈ domain.actionList, part pair = other) ∧ other < name}.ncard = number

theorem numbers_iff {part : Action → String} {name : String} {number : Nat} :
    domain.Numbers part name number ↔
      (CodeTable.sortedNames (domain.actionList.map part))[number]? = some name := by
  rw [CodeTable.getElem?_sortedNames_iff]
  simp only [List.mem_map, Numbers]

theorem exists_allHave_eq (s : List Bool) (value : Bool) {places : List Nat}
    (h : ∀ i ∈ places, i < s.length) : ∃ answer, allHave s value places = .ok answer := by
  induction places with
  | nil => exact ⟨true, rfl⟩
  | cons i places ih =>
    obtain ⟨hi, hrest⟩ := List.forall_mem_cons.1 h
    rw [allHave, List.getElem?_eq_getElem hi]
    dsimp only
    split
    · exact ih hrest
    · exact ⟨false, rfl⟩

/-- A checked domain can tell of each state of its fluents whether it is a goal. -/
theorem WellFormed.exists_isGoal_eq (hdomain : domain.WellFormed)
    (hs : s.length = domain.fluents.length) : ∃ answer, domain.isGoal s = .ok answer := by
  obtain ⟨holds, hholds⟩ := exists_allHave_eq s true
    fun i hi => hs ▸ hdomain.goal_lt i (Std.TreeSet.mem_toList.1 hi)
  obtain ⟨fails, hfails⟩ := exists_allHave_eq s false
    fun i hi => hs ▸ hdomain.goalForbidden_lt i (Std.TreeSet.mem_toList.1 hi)
  unfold isGoal
  rw [hholds]
  cases holds with
  | false => exact ⟨false, rfl⟩
  | true => exact ⟨fails, hfails⟩

end Domain

namespace Stepper

open Manager

variable {stepper : Stepper} {current : Manager} {agentOk : Edge} {state : List Bool}
  {action reaction : Nat}

/-- The codes of two numbers, on the outputs and on the inputs. -/
def letters (encoding : Encoding) (action reaction : Nat) : Valuation :=
  (Valuation.assign (fun _ => false) encoding.outputs
    (Binary.encode action encoding.outputs.length)).assign encoding.inputs
      (Binary.encode reaction encoding.inputs.length)

section Refusals

theorem choiceBits_of_le {choice : Choice} {id : Nat} {vars : List Var}
    (hvars : vars.length < maxBits) (h : 2 ^ vars.length ≤ id) :
    choiceBits choice id vars = .error (.idOutOfRange choice id vars.length) :=
  if_pos ⟨hvars, h⟩

theorem choiceBits_of_lt (choice : Choice) {id : Nat} {vars : List Var} (h : id < 2 ^ vars.length) :
    choiceBits choice id vars = .ok (Binary.encode id vars.length) :=
  if_neg fun hle => absurd hle.2 h.not_ge

theorem run_step_of_action (houtputs : stepper.encoding.outputs.length < maxBits)
    (haction : 2 ^ stepper.encoding.outputs.length ≤ action) :
    (stepper.step state action reaction).run.run current =
      (.error (.refused (.idOutOfRange .action action stepper.encoding.outputs.length)),
        current) := by
  unfold step
  dsimp only
  rw [choiceBits_of_le houtputs haction]
  exact run_bind_of_error (run_ofExcept_error _ current) _

variable (haction : action < 2 ^ stepper.encoding.outputs.length)
include haction

theorem run_step_of_reaction (hinputs : stepper.encoding.inputs.length < maxBits)
    (hreaction : 2 ^ stepper.encoding.inputs.length ≤ reaction) :
    (stepper.step state action reaction).run.run current =
      (.error (.refused (.idOutOfRange .reaction reaction stepper.encoding.inputs.length)),
        current) := by
  unfold step
  dsimp only
  rw [choiceBits_of_lt .action haction, choiceBits_of_le hinputs hreaction,
    run_bind_of_ok (run_ofExcept_ok _ current)]
  exact run_bind_of_error (run_ofExcept_error _ current) _

variable (hreaction : reaction < 2 ^ stepper.encoding.inputs.length)
include hreaction

theorem run_step_of_length (hstate : state.length ≠ stepper.arena.initial.length) :
    (stepper.step state action reaction).run.run current =
      (.error (.refused (.stateLength stepper.arena.initial.length state.length)), current) := by
  have hnext : stepper.arena.step current.store state (letters stepper.encoding action reaction) =
      .error (.stateLength stepper.arena.initial.length state.length) := if_neg hstate
  unfold step
  dsimp only
  rw [choiceBits_of_lt .action haction, choiceBits_of_lt .reaction hreaction,
    run_bind_of_ok (run_ofExcept_ok _ current), run_bind_of_ok (run_ofExcept_ok _ current),
    run_bind_of_ok (show diagrams.run.run current = (.ok current.store, current) from rfl)]
  refine run_bind_of_error (?_ : (ofExcept (stepper.arena.step current.store state
    (letters stepper.encoding action reaction))).run.run current = _) _
  rw [hnext, run_ofExcept_error]

end Refusals

section Reports

/-- What a report tells of a step, read in a store. -/
structure Reads (stepper : Stepper) (store : Store) (agentOk : Edge) (state : List Bool)
    (action reaction : Nat) (report : StepReport) : Prop where
  action_eq : report.action = action
  actionName_eq : report.actionName = stepper.encoding.actionName? action
  reactionName_eq : report.reactionName = stepper.encoding.reactionName? reaction
  next : stepper.arena.step store state (letters stepper.encoding action reaction) =
    .ok report.next
  agentViolation_eq : report.agentViolation = !store.eval agentOk
    (stepper.arena.valuation state (letters stepper.encoding action reaction))
  envError : report.next[stepper.encoding.envErrorBit]? = some report.envError
  agentError : match stepper.encoding.agentErrorBit? with
    | none => report.agentError = report.agentViolation
    | some place => report.next[place]? = some report.agentError
  isFinal_eq : report.isFinal =
    stepper.arena.satisfies store stepper.encoding.automaton.finals report.next

variable (hs : current.store.Replayable) (hdiagrams : stepper.encoding.Every current.store.Has)
  (hpermits : stepper.encoding.Permits current.store agentOk)
include hs hdiagrams hpermits

/-- The condition for a legal choice is there already. -/
theorem run_conj_of_permits :
    ∃ later : Store, (liftM (Diagram.conj stepper.encoding.agentPrecondition
      stepper.encoding.agentMutex) : ManagerM Edge).run.run current =
        (.ok agentOk, ⟨later, current.registry⟩) ∧
      (∀ e : Edge, current.store.Has e → ∀ a, later.eval e a = current.store.eval e a) := by
  have hfounded := hs.toFounded
  obtain ⟨later, hconj, hnodes, -⟩ := Diagram.stays_iteWithin _ hs
    ⟨hdiagrams.agentPrecondition, hdiagrams.agentMutex, hfounded.has_zero⟩
    (Nat.lt_succ_self _) hpermits
  refine ⟨later, ?_, fun e he => hfounded.eval_mono (Store.le_of_nodes_eq hnodes) he⟩
  rw [run_lift]
  exact congrArg (fun r : Except Failure Edge × Store =>
    (r.1, (⟨r.2, current.registry⟩ : Manager))) hconj

variable (stepper) in
/-- A step whose arguments pass the checks is reported. -/
theorem exists_report (haction : action < 2 ^ stepper.encoding.outputs.length)
    (hreaction : reaction < 2 ^ stepper.encoding.inputs.length)
    (hstate : state.length = stepper.arena.initial.length)
    (henv : stepper.encoding.envErrorBit < stepper.arena.next.length)
    (hagent : ∀ place, stepper.encoding.agentErrorBit? = some place →
      place < stepper.arena.next.length) :
    ∃ report later, (stepper.step state action reaction).run.run current = (.ok report, later) ∧
      stepper.Reads current.store agentOk state action reaction report := by
  let a := stepper.arena.valuation state (letters stepper.encoding action reaction)
  let next := stepper.arena.next.map fun edge => current.store.eval edge a
  have hnext : stepper.arena.step current.store state
      (letters stepper.encoding action reaction) = .ok next := if_pos hstate
  have hlength : next.length = stepper.arena.next.length := List.length_map _
  have henv : stepper.encoding.envErrorBit < next.length := hlength.symm ▸ henv
  have henvError := List.getElem?_eq_getElem henv
  obtain ⟨later, hconj, hvalue⟩ := run_conj_of_permits hs hdiagrams hpermits
  let last : Manager := ⟨later, current.registry⟩
  let violation := !later.eval agentOk a
  have hagentError : ∃ agentError, match stepper.encoding.agentErrorBit? with
      | none => agentError = violation
      | some place => next[place]? = some agentError := by
    split
    · exact ⟨_, rfl⟩
    · next place hplace => exact ⟨_, List.getElem?_eq_getElem (hlength.symm ▸ hagent place hplace)⟩
  obtain ⟨agentError, hagentError⟩ := hagentError
  let report : StepReport :=
    { state, action, reaction, next, agentError
      agentViolation := violation
      envError := next[stepper.encoding.envErrorBit]
      actionName := stepper.encoding.actionName? action
      reactionName := stepper.encoding.reactionName? reaction
      isFinal := stepper.arena.satisfies later stepper.encoding.automaton.finals next
      before := stepper.encoding.domain.describe state
      after := stepper.encoding.domain.describe next }
  have hrun : ∃ noted, (stepper.step state action reaction).run.run current =
      (.ok report, noted) := by
    unfold step
    dsimp only
    rw [choiceBits_of_lt .action haction, choiceBits_of_lt .reaction hreaction,
      run_bind_of_ok (run_ofExcept_ok _ current), run_bind_of_ok (run_ofExcept_ok _ current),
      run_bind_of_ok (show diagrams.run.run current = (.ok current.store, current) from rfl)]
    change ∃ noted, (ofExcept (stepper.arena.step current.store state
      (letters stepper.encoding action reaction)) >>= _).run.run current = _
    rw [hnext, run_bind_of_ok (run_ofExcept_ok next current), run_bind_of_ok hconj,
      run_bind_of_ok (show diagrams.run.run last = (.ok later, last) from rfl)]
    dsimp only [last]
    -- the bit `agent_err` is read before the bit `env_err`, if it is there
    cases hplace : stepper.encoding.agentErrorBit? with
    | none =>
      rw [hplace] at hagentError
      obtain rfl : agentError = violation := hagentError
      rw [henvError]
      exact ⟨_, rfl⟩
    | some place =>
      rw [hplace] at hagentError
      dsimp only at hagentError ⊢
      rw [hagentError, henvError]
      exact ⟨_, rfl⟩
  obtain ⟨noted, hrun⟩ := hrun
  have hagentOk : current.store.Has agentOk := (hpermits.computes hs.toFounded
    ⟨hdiagrams.agentPrecondition, hdiagrams.agentMutex, hs.toFounded.has_zero⟩).result
  exact ⟨report, noted, hrun,
    { action_eq := rfl
      actionName_eq := rfl
      reactionName_eq := rfl
      next := hnext
      agentViolation_eq := congrArg (! ·) (hvalue agentOk hagentOk _)
      envError := henvError
      agentError := hagentError
      isFinal_eq := hvalue _ hdiagrams.finals _ }⟩

end Reports

end Stepper

namespace Encoding

variable {registry : Registry} {store : Store} {domain : Domain} {mode : AgentErrorMode}
  {encoding : Encoding} {agentOk : Edge} {state : List Bool} {action reaction : Nat}
  {report : StepReport}

/-- The report tells what the domain says of a step. -/
structure Truthful (domain : Domain) (mode : AgentErrorMode) (state : List Bool)
    (action reaction : Nat) (report : StepReport) : Prop where
  isFinal : domain.isGoal (report.next.take domain.fluents.length) = .ok report.isFinal
  envError : report.envError = true ↔ state[domain.fluents.length]? = some true ∨
    ¬ ∃ pair ∈ domain.actionList, domain.Numbers Action.agent pair.agent action ∧
      domain.Numbers Action.reaction pair.reaction reaction
  agentViolation : report.agentViolation = true ↔
    ¬ ∃ name, domain.Numbers Action.agent name action ∧ domain.Applicable name state
  agentError : match mode with
    | .invariant => report.agentError = report.agentViolation
    | .errorBit => report.agentError = true ↔
      state[domain.fluents.length + 1]? = some true ∨ report.agentViolation = true
  actionName : ∀ name, report.actionName = some name ↔ domain.Numbers Action.agent name action
  reactionName : ∀ name,
    report.reactionName = some name ↔ domain.Numbers Action.reaction name reaction

theorem length_affected (pairs : List Action) (fluents : List Bool) :
    (affected pairs fluents).length = fluents.length :=
  List.length_mapIdx

section Bits

variable (hlength : encoding.envErrorBit ≤ state.length)
include hlength

theorem getElem?_nextState_envError :
    (encoding.nextState state action reaction)[encoding.envErrorBit]? =
      some (state[encoding.envErrorBit]?.getD false ||
        (encoding.pairsAt action reaction).isEmpty) := by
  have htake := List.length_take_of_le hlength
  rw [nextState, List.getElem?_append_right (by rw [length_affected, htake]), length_affected,
    htake, Nat.sub_self]
  rfl

theorem getElem?_nextState_agentError (hmode : encoding.mode = .errorBit) :
    (encoding.nextState state action reaction)[encoding.envErrorBit + 1]? =
      some (state[encoding.envErrorBit + 1]?.getD false || !encoding.legalAt action state) := by
  have htake := List.length_take_of_le hlength
  have hbit : encoding.agentErrorBit? = some (encoding.envErrorBit + 1) := by
    rw [agentErrorBit?, hmode]
    rfl
  rw [nextState, List.getElem?_append_right (by rw [length_affected, htake]; omega),
    length_affected, htake, Nat.add_sub_cancel_left, nextErrors, hbit]
  rfl

end Bits

theorem getD_eq_true_iff {place : Nat} :
    state[place]?.getD false = true ↔ state[place]? = some true := by
  cases state[place]? <;> simp

section Codes

variable (h : Faithful registry store domain mode encoding)
include h

theorem Faithful.actionName?_eq_some_iff {name : String} :
    encoding.actionName? action = some name ↔ domain.Numbers Action.agent name action := by
  rw [actionName?, h.agentNames_eq, agentNamesOf, Domain.numbers_iff]

theorem Faithful.reactionName?_eq_some_iff {name : String} :
    encoding.reactionName? reaction = some name ↔
      domain.Numbers Action.reaction name reaction := by
  rw [reactionName?, h.reactionNames_eq, reactionNamesOf, Domain.numbers_iff]

theorem Faithful.isEmpty_pairsAt_iff_numbers :
    (encoding.pairsAt action reaction).isEmpty = true ↔
      ¬ ∃ pair ∈ domain.actionList, domain.Numbers Action.agent pair.agent action ∧
        domain.Numbers Action.reaction pair.reaction reaction := by
  simp only [h.isEmpty_pairsAt_iff, Selected, h.actionName?_eq_some_iff,
    h.reactionName?_eq_some_iff]

theorem Faithful.legalAt_iff_numbers :
    encoding.legalAt action state = true ↔
      ∃ name, domain.Numbers Action.agent name action ∧ domain.Applicable name state := by
  simp only [h.legalAt_iff, h.actionName?_eq_some_iff]

/-- What was worked out for a legal choice of the agent is true of an applicable action. -/
theorem Faithful.eval_agentOk (hf : store.Founded) (hpermits : encoding.Permits store agentOk)
    (a : Valuation) :
    store.eval agentOk a = true ↔
      ∃ chosen, encoding.action a = some chosen ∧
        domain.Applicable chosen (encoding.automaton.stateOf a) := by
  have hcomputes := hpermits.computes hf
    ⟨h.agentPrecondition.has, h.agentMutex.has, hf.has_zero⟩
  rw [hcomputes.eval_eq, ← forall_and_isSome_iff, ← h.agentPrecondition.eval_iff a,
    ← h.agentMutex.eval_iff a]
  cases hpre : store.eval encoding.agentPrecondition a <;> simp [Store.evalTriple, hpre]

theorem Faithful.isFinal_iff {next : List Bool}
    (hnext : next.length = encoding.automaton.stateVars.length) :
    encoding.automaton.satisfies store encoding.automaton.finals next = true ↔
      domain.isGoal next = .ok true := by
  rw [Automaton.satisfies, h.finals.eval_iff, h.stateOf_valuation hnext]

theorem Faithful.outputs_letters (action reaction : Nat) :
    encoding.outputs.map (Stepper.letters encoding action reaction) =
      Binary.encode action encoding.outputs.length := by
  have hnodup := h.outputs_eq ▸ h.placed.outputs_fit.vars_nodup
  have hdisjoint := (List.nodup_append'.1 (List.nodup_append'.1 h.placed.nodup).2.1).2.2
  rw [← h.outputs_eq, ← h.inputs_eq] at hdisjoint
  rw [← Valuation.map_assign (fun _ => false) hnodup (Binary.length_encode action _)]
  exact List.map_congr_left fun v hv =>
    Valuation.assign_of_not_mem (fun hmem => hdisjoint hmem hv) _ _

theorem Faithful.inputs_letters (action reaction : Nat) :
    encoding.inputs.map (Stepper.letters encoding action reaction) =
      Binary.encode reaction encoding.inputs.length :=
  Valuation.map_assign _ (h.inputs_eq ▸ h.placed.inputs_fit.vars_nodup) (Binary.length_encode _ _)

/-- What is read off the diagrams, bits and tables of an encoding is what the domain says. -/
theorem Faithful.truthful (hdomain : domain.WellFormed) (hf : store.Founded)
    (hpermits : encoding.Permits store agentOk)
    (hstate : state.length = encoding.automaton.stateVars.length)
    (haction : action < 2 ^ encoding.outputs.length)
    (hreaction : reaction < 2 ^ encoding.inputs.length)
    (hreads : (⟨encoding, encoding.automaton⟩ : Stepper).Reads store agentOk state action reaction
      report) :
    report.next = encoding.nextState state action reaction ∧
      Truthful domain mode state action reaction report := by
  have houtputs := h.outputs_letters action reaction
  have hnext : report.next = encoding.nextState state action reaction := Except.ok.inj <|
    hreads.next.symm.trans
      (h.step_codes hstate haction hreaction houtputs (h.inputs_letters action reaction))
  have hnextLength : report.next.length = encoding.automaton.stateVars.length := by
    have hstep := hreads.next
    rw [Automaton.step, if_pos (hstate.trans h.initial_length.symm)] at hstep
    rw [← Except.ok.inj hstep, List.length_map, h.next_length]
  have hplace : encoding.envErrorBit = domain.fluents.length := by rw [envErrorBit, h.domain_eq]
  have hfluents : encoding.envErrorBit ≤ state.length := hplace ▸ h.fluents_le hstate
  have hviolation : report.agentViolation = true ↔ ¬ encoding.legalAt action state = true := by
    rw [hreads.agentViolation_eq, Bool.not_eq_true', ← Bool.not_eq_true, h.eval_agentOk hf hpermits,
      h.stateOf_valuation hstate, h.action_valuation, h.action_of_code haction houtputs,
      h.legalAt_iff]
  refine ⟨hnext,
    { isFinal := ?_
      envError := ?_
      agentViolation := hviolation.trans (not_congr h.legalAt_iff_numbers)
      agentError := ?_
      actionName := fun name => by rw [hreads.actionName_eq, h.actionName?_eq_some_iff]
      reactionName := fun name => by rw [hreads.reactionName_eq, h.reactionName?_eq_some_iff] }⟩
  · have htake := List.length_take_of_le (h.fluents_le hnextLength)
    obtain ⟨answer, hanswer⟩ := hdomain.exists_isGoal_eq htake
    have hfinal := h.isFinal_iff hnextLength
    rw [← hreads.isFinal_eq, ← List.take_append_drop domain.fluents.length report.next,
      hdomain.isGoal_append_iff htake, hanswer, Except.ok.injEq, ← Bool.eq_iff_iff] at hfinal
    rw [hanswer, hfinal]
  · have henv := hreads.envError
    rw [hnext] at henv
    rw [← Option.some.inj ((getElem?_nextState_envError hfluents).symm.trans henv),
      Bool.or_eq_true, getD_eq_true_iff, h.isEmpty_pairsAt_iff_numbers, hplace]
  · have hagent := hreads.agentError
    rw [agentErrorBit?, h.mode_eq, h.domain_eq] at hagent
    cases mode with
    | invariant => exact hagent
    | errorBit =>
      dsimp only at hagent
      rw [hnext, ← hplace] at hagent
      rw [← Option.some.inj ((getElem?_nextState_agentError hfluents h.mode_eq).symm.trans hagent),
        Bool.or_eq_true, getD_eq_true_iff, Bool.not_eq_true', ← Bool.not_eq_true, hviolation,
        hplace]

theorem Faithful.agentErrorBit_lt {place : Nat} (hplace : encoding.agentErrorBit? = some place) :
    place < encoding.automaton.next.length := by
  rw [agentErrorBit?, h.mode_eq, h.domain_eq] at hplace
  rw [← h.next.length_eq]
  cases mode with
  | invariant => exact absurd hplace (by simp)
  | errorBit =>
    obtain rfl := Option.some.inj hplace
    simp [Bit.all, Bit.errors]

theorem Faithful.envErrorBit_lt : encoding.envErrorBit < encoding.automaton.next.length := by
  rw [envErrorBit, h.domain_eq, ← h.next.length_eq, Bit.all]
  simp

end Codes

/-- Compiled over any manager that has not run out of numbers for variables, and stepped through in
any later one, whatever diagrams it holds. A number that does not fit its variables is refused, the
action first, and so is a state of another length. Any other step is reported, and the report tells
what the domain says, for numbers that stand for no name too. -/
theorem step_report_exact {parts : DomainParts} {manager compiled current later : Manager}
    {outcome : Except Failure StepReport} (hparts : Domain.ofParts parts = .ok domain)
    (hs : manager.store.Replayable) (hsize : manager.registry.size < UInt32.size)
    (hcompile : (ofDomain domain mode).run.run manager = (.ok encoding, compiled))
    (hcurrent : current.store.Replayable) (hle : compiled.store ≤ current.store)
    (houtputs : encoding.outputs.length < Stepper.maxBits)
    (hinputs : encoding.inputs.length < Stepper.maxBits)
    (hrun : (Stepper.step ⟨encoding, encoding.automaton⟩ state action reaction).run.run current =
      (outcome, later)) :
    (outcome = .error (.refused (.idOutOfRange .action action encoding.outputs.length)) ↔
      2 ^ encoding.outputs.length ≤ action) ∧
    (outcome = .error (.refused (.idOutOfRange .reaction reaction encoding.inputs.length)) ↔
      action < 2 ^ encoding.outputs.length ∧ 2 ^ encoding.inputs.length ≤ reaction) ∧
    (outcome = .error (.refused (.stateLength (stateNames domain mode).length state.length)) ↔
      action < 2 ^ encoding.outputs.length ∧ reaction < 2 ^ encoding.inputs.length ∧
        state.length ≠ (stateNames domain mode).length) ∧
    (action < 2 ^ encoding.outputs.length → reaction < 2 ^ encoding.inputs.length →
      state.length = (stateNames domain mode).length →
        ∃ report, outcome = .ok report ∧ report.next = encoding.nextState state action reaction ∧
          Truthful domain mode state action reaction report) := by
  let stepper : Stepper := ⟨encoding, encoding.automaton⟩
  have hfounded := hcurrent.toFounded
  obtain ⟨hsound, -, h⟩ :=
    yieldsIn_ofDomain hs.regular hsize (fun h => False.elim h) encoding compiled hcompile
  have h := h.mono hsound.toFounded hle le_rfl
  obtain ⟨-, -, agentOk, hpermits⟩ := yields_ofDomain_permits hs hsize encoding compiled hcompile
  obtain ⟨-, -, hown⟩ := yields_ofDomain_onVariables hs hsize encoding compiled hcompile
  have hpermits : encoding.Permits current.store agentOk := hpermits.mono hle
  have hhas : encoding.Every current.store.Has :=
    Every.imp (hown.mono hle) fun _ he => he.has hfounded
  have hlength : encoding.automaton.initial.length = (stateNames domain mode).length :=
    h.initial_length.trans h.length_stateNames
  obtain haction | haction := le_or_gt (2 ^ encoding.outputs.length) action
  · have hstep : (stepper.step state action reaction).run.run current = _ :=
      Stepper.run_step_of_action houtputs haction
    obtain rfl : _ = outcome := congrArg Prod.fst (hstep.symm.trans hrun)
    simp [stepper, haction, haction.not_gt]
  obtain hreaction | hreaction := le_or_gt (2 ^ encoding.inputs.length) reaction
  · have hstep : (stepper.step state action reaction).run.run current = _ :=
      Stepper.run_step_of_reaction haction hinputs hreaction
    obtain rfl : _ = outcome := congrArg Prod.fst (hstep.symm.trans hrun)
    simp [stepper, haction, haction.not_ge, hreaction, hreaction.not_gt]
  by_cases hstate : state.length = (stateNames domain mode).length
  · have hstate' := hstate.trans h.length_stateNames.symm
    obtain ⟨report, last, hstep, hreads⟩ := Stepper.exists_report stepper hcurrent hhas
      hpermits haction hreaction (hstate.trans hlength.symm) h.envErrorBit_lt
      fun place hplace => h.agentErrorBit_lt hplace
    obtain rfl : _ = outcome := congrArg Prod.fst (hstep.symm.trans hrun)
    have htruthful := h.truthful (Domain.wellFormed_of_ofParts hparts) hfounded hpermits hstate'
      haction hreaction hreads
    simpa [haction, haction.not_ge, hreaction, hreaction.not_ge, hstate] using htruthful
  · have hstep : (stepper.step state action reaction).run.run current = _ :=
      Stepper.run_step_of_length haction hreaction fun heq => hstate (heq.trans hlength)
    rw [show stepper.arena.initial.length = _ from hlength] at hstep
    obtain rfl : _ = outcome := congrArg Prod.fst (hstep.symm.trans hrun)
    simp [haction, haction.not_ge, hreaction, hreaction.not_ge, hstate]

/-- Three agent actions have two bits, and the only reaction has none. -/
def spareParts : DomainParts where
  fluents := ["p"]
  initial := [false]
  actions := [{ name := "ar", agent := "a", reaction := "r", adds := .ofList [0] },
    { name := "br", agent := "b", reaction := "r" },
    { name := "cr", agent := "c", reaction := "r", required := .ofList [0] }]
  goal := .ofList [0]

/-- The domain of these parts. -/
def spare : Domain where
  fluents := spareParts.fluents
  initial := spareParts.initial
  actions := Domain.actionsByName spareParts.actions
  goal := spareParts.goal
  goalForbidden := ∅
  invariants := []

/-- In a new manager, the number that stands for no action is reported, and both players break their
rules. -/
theorem spare_step_reported :
    ∃ (manager compiled later : Manager) (encoding : Encoding) (report : StepReport),
      Manager.create ⟨1, 1⟩ {} = .ok manager ∧ Domain.ofParts spareParts = .ok spare ∧
      manager.store.Replayable ∧ manager.registry.size < UInt32.size ∧
      (ofDomain spare .errorBit).run.run manager = (.ok encoding, compiled) ∧
      compiled.store.Replayable ∧ encoding.outputs.length = 2 ∧ encoding.inputs.length = 0 ∧
      (Stepper.step ⟨encoding, encoding.automaton⟩ [true, false, false] 3 0).run.run compiled =
        (.ok report, later) ∧
      report.next = [true, true, true] ∧
      Truthful spare .errorBit [true, false, false] 3 0 report := by
  let manager : Manager := { store := .blank }
  have hcreate : Manager.create ⟨1, 1⟩ {} = .ok manager := rfl
  have hparts : Domain.ofParts spareParts = .ok spare := rfl
  have hs : manager.store.Replayable := Store.replayable_blank
  have hsize : manager.registry.size < UInt32.size := by decide
  have hok : answersWith (ofDomain spare .errorBit) manager (fun encoding _ =>
      decide (encoding.outputs.length = 2 ∧ encoding.inputs.length = 0 ∧
        encoding.nextState [true, false, false] 3 0 = [true, true, true])) = true := by
    cbv
  obtain ⟨encoding, compiled, hcompile, hok⟩ := exists_run_of_answersWith hok
  obtain ⟨houtputs, hinputs, hnext⟩ := of_decide_eq_true hok
  obtain ⟨hcompiled, -, -⟩ := yields_ofDomain_onVariables hs hsize encoding compiled hcompile
  obtain ⟨outcome, later, hstep⟩ : ∃ outcome later,
      (Stepper.step ⟨encoding, encoding.automaton⟩ [true, false, false] 3 0).run.run compiled =
        (outcome, later) := ⟨_, _, rfl⟩
  obtain ⟨-, -, -, hreport⟩ := step_report_exact hparts hs hsize hcompile hcompiled le_rfl
    (by rw [houtputs]; decide) (by rw [hinputs]; decide) hstep
  obtain ⟨report, rfl, hreportNext, htruthful⟩ :=
    hreport (by rw [houtputs]; decide) (by rw [hinputs]; decide) rfl
  exact ⟨manager, compiled, later, encoding, report, hcreate, hparts, hs, hsize, hcompile,
    hcompiled, houtputs, hinputs, hstep, hreportNext.trans hnext, htruthful⟩

end Encoding

end PlanningGame
