import Mathlib
import PlanningGame.Proofs.Diagram.Session
import PlanningGame.Proofs.Encoding.Step

/-!
# Steps on codes

One step of an encoded domain, in any state and with any code on the outputs and on the inputs. The
pairs whose two parts have the numbers of these codes have their effects, of which additions win.
If there are none, for example because a code stands for no name, then the fluents stay as they are
and the bit `env_err` is set. The diagrams are only evaluated, so nothing depends on the order of
their variables: the domain may ask for a fluent both ways, and the manager may hold any diagrams.
-/
namespace PlanningGame

instance Action.decidablePermits (action : Action) (s : List Bool) : Decidable (action.Permits s) :=
  decidable_of_iff ((∀ i ∈ action.required.toList, s[i]? = some true) ∧
      ∀ i ∈ action.forbidden.toList, s[i]? = some false) <| by
    simp only [Std.TreeSet.mem_toList]
    exact ⟨fun h => ⟨h.1, h.2⟩, fun h => ⟨h.required, h.forbidden⟩⟩

namespace Encoding

/-- The pairs whose agent action has the first number and whose reaction has the second. -/
def pairsAt (encoding : Encoding) (a r : Nat) : List Action :=
  encoding.domain.actionList.filter fun action =>
    encoding.actionId? action.agent = some a ∧ encoding.reactionId? action.reaction = some r

/-- The number is that of an agent action, and the conditions of the first of its pairs hold. -/
def legalAt (encoding : Encoding) (a : Nat) (s : List Bool) : Bool :=
  match encoding.actionName? a with
  | none => false
  | some name =>
    match encoding.domain.actionList.find? (·.agent = name) with
    | none => false
    | some first => decide (first.Permits s)

/-- The fluents after some pairs. What is added holds, what is deleted and not added does not, and
all others stay as they are. -/
def affected (pairs : List Action) (fluents : List Bool) : List Bool :=
  fluents.mapIdx fun i value =>
    if pairs.any (·.adds.contains i) then true
    else if pairs.any (·.deletes.contains i) then false
    else value

/-- The error bits after a step on two codes. They stay set. No pair with both numbers is an error
of the environment, an illegal choice one of the agent. -/
def nextErrors (encoding : Encoding) (s : List Bool) (a r : Nat) : List Bool :=
  (s[encoding.envErrorBit]?.getD false || (encoding.pairsAt a r).isEmpty) ::
    match encoding.agentErrorBit? with
    | none => []
    | some place => [s[place]?.getD false || !encoding.legalAt a s]

/-- The state after a step on two codes. -/
def nextState (encoding : Encoding) (s : List Bool) (a r : Nat) : List Bool :=
  affected (encoding.pairsAt a r) (s.take encoding.envErrorBit) ++ encoding.nextErrors s a r

section Names

theorem idxOf?_eq_some_iff {names : List String} (h : names.Nodup) {i : Nat} {name : String} :
    names.idxOf? name = some i ↔ names[i]? = some name := by
  rw [List.idxOf?_eq_some_iff, List.getElem?_eq_some_iff]
  refine exists_congr fun hi => ⟨fun hname => hname.1, fun hname => ⟨hname, fun j hj heq => ?_⟩⟩
  exact hj.ne (h.getElem_inj_iff.1 (heq.trans hname.symm))

/-- A number on the variables of a code chooses the name with this number. -/
theorem chosen_eq {names : List String} {vars : List Var} {letters : Valuation} {n : Nat}
    (hn : n < 2 ^ vars.length) (hletters : vars.map letters = Binary.encode n vars.length) :
    CodeTable.chosen names vars letters = names[n]? := by
  rw [CodeTable.chosen, hletters, Binary.decode_encode hn]

end Names

variable {registry : Registry} {store : Store} {domain : Domain} {mode : AgentErrorMode}
  {encoding : Encoding} {s : List Bool} {letters : Valuation} {a r : Nat}

section Codes

variable (h : Faithful registry store domain mode encoding)
include h

theorem Faithful.actionId?_eq_some_iff {name : String} :
    encoding.actionId? name = some a ↔ encoding.actionName? a = some name := by
  refine idxOf?_eq_some_iff ?_
  rw [h.agentNames_eq]
  exact CodeTable.sortedNames_nodup _

theorem Faithful.reactionId?_eq_some_iff {name : String} :
    encoding.reactionId? name = some r ↔ encoding.reactionName? r = some name := by
  refine idxOf?_eq_some_iff ?_
  rw [h.reactionNames_eq]
  exact CodeTable.sortedNames_nodup _

theorem Faithful.mem_pairsAt_iff {action : Action} :
    action ∈ encoding.pairsAt a r ↔ action ∈ domain.actionList ∧
      Selected (encoding.actionName? a) (encoding.reactionName? r) action := by
  rw [pairsAt, List.mem_filter, decide_eq_true_eq, h.actionId?_eq_some_iff,
    h.reactionId?_eq_some_iff, h.domain_eq, Selected]

theorem Faithful.any_pairsAt_iff {p : Action → Bool} :
    (encoding.pairsAt a r).any p = true ↔ ∃ action ∈ domain.actionList, p action = true ∧
      Selected (encoding.actionName? a) (encoding.reactionName? r) action := by
  rw [List.any_eq_true]
  refine exists_congr fun action => ?_
  rw [h.mem_pairsAt_iff]
  tauto

theorem Faithful.isEmpty_pairsAt_iff :
    (encoding.pairsAt a r).isEmpty = true ↔ ¬ ∃ action ∈ domain.actionList,
      Selected (encoding.actionName? a) (encoding.reactionName? r) action := by
  rw [List.isEmpty_iff, List.eq_nil_iff_forall_not_mem, not_exists]
  exact forall_congr' fun action => not_congr h.mem_pairsAt_iff

theorem Faithful.legalAt_iff :
    encoding.legalAt a s = true ↔
      ∃ chosen, encoding.actionName? a = some chosen ∧ domain.Applicable chosen s := by
  unfold legalAt Domain.Applicable
  rw [h.domain_eq]
  cases encoding.actionName? a with
  | none => simp
  | some name =>
    simp only [Option.some.injEq, exists_eq_left']
    cases domain.actionList.find? (·.agent = name) with
    | none => simp
    | some first => simp

end Codes

section Bits

variable (h : Faithful registry store domain mode encoding)
include h

open Classical in
/-- The fluents after a step. -/
theorem Faithful.map_affected (hs : domain.fluents.length ≤ s.length) :
    ((List.range domain.fluents.length).map fun i => decide ((Bit.fluent i).Next domain s
        (encoding.actionName? a) (encoding.reactionName? r))) =
      affected (encoding.pairsAt a r) (s.take domain.fluents.length) := by
  refine List.ext_getElem? fun i => ?_
  rw [affected, List.getElem?_mapIdx, List.getElem?_map, List.getElem?_take]
  by_cases hi : i < domain.fluents.length
  · rw [List.getElem?_range hi, if_pos hi, List.getElem?_eq_getElem (hi.trans_le hs),
      Option.map_some, Option.map_some, Option.some.injEq, Bool.eq_iff_iff, decide_eq_true_iff,
      Bit.Next, ← h.any_pairsAt_iff, ← h.any_pairsAt_iff,
      List.getElem?_eq_getElem (hi.trans_le hs), Option.some.injEq]
    split_ifs with hadds hdeletes
    · simp [hadds]
    · simp [hadds, hdeletes]
    · simp [hadds, hdeletes]
  · rw [if_neg hi, List.getElem?_eq_none (by simpa using hi)]
    rfl

open Classical in
/-- The error bits after a step. -/
theorem Faithful.map_nextErrors :
    ((Bit.envError :: Bit.errors mode).map fun bit => decide (bit.Next domain s
        (encoding.actionName? a) (encoding.reactionName? r))) = encoding.nextErrors s a r := by
  have hvalue : ∀ place : Nat, s[place]?.getD false = true ↔ s[place]? = some true := by
    intro place
    cases s[place]? <;> simp
  have henv : decide (Bit.envError.Next domain s (encoding.actionName? a)
      (encoding.reactionName? r)) =
      (s[domain.fluents.length]?.getD false || (encoding.pairsAt a r).isEmpty) := by
    rw [Bool.eq_iff_iff, decide_eq_true_iff, Bool.or_eq_true, h.isEmpty_pairsAt_iff, hvalue,
      Bit.Next]
  have hagent : decide (Bit.agentError.Next domain s (encoding.actionName? a)
      (encoding.reactionName? r)) =
      (s[domain.fluents.length + 1]?.getD false || !encoding.legalAt a s) := by
    rw [Bool.eq_iff_iff, decide_eq_true_iff, Bool.or_eq_true, Bool.not_eq_true', hvalue,
      ← Bool.not_eq_true, h.legalAt_iff, Bit.Next]
  rw [nextErrors, envErrorBit, agentErrorBit?, h.mode_eq, h.domain_eq, List.map_cons, henv]
  cases mode with
  | invariant => rfl
  | errorBit => rw [Bit.errors, List.map_singleton, hagent]

theorem Faithful.stateOf_valuation (hs : s.length = encoding.automaton.stateVars.length)
    (letters : Valuation) :
    encoding.automaton.stateOf (encoding.automaton.valuation s letters) = s :=
  Valuation.map_assign letters h.placed.owns.nodup hs

theorem Faithful.action_valuation (s : List Bool) (letters : Valuation) :
    encoding.action (encoding.automaton.valuation s letters) = encoding.action letters :=
  CodeTable.chosen_congr fun _ hv =>
    Valuation.assign_of_not_mem (fun hmem => h.closed.not_mem_outputs hmem hv) letters s

theorem Faithful.reaction_valuation (s : List Bool) (letters : Valuation) :
    encoding.reaction (encoding.automaton.valuation s letters) = encoding.reaction letters :=
  CodeTable.chosen_congr fun _ hv =>
    Valuation.assign_of_not_mem (fun hmem => h.closed.not_mem_inputs hmem hv) letters s

open Classical in
/-- The next state of given letters has one bit for each condition. -/
theorem Faithful.step_eq (hs : s.length = encoding.automaton.stateVars.length) :
    encoding.automaton.step store s letters = .ok ((Bit.all domain mode).map fun bit =>
      decide (bit.Next domain s (encoding.action letters) (encoding.reaction letters))) := by
  have key := h.next.map_eval (encoding.automaton.valuation s letters)
  rw [h.stateOf_valuation hs, h.action_valuation, h.reaction_valuation] at key
  rw [Automaton.step, if_pos (hs.trans h.initial_length.symm), key]

/-- A number on the outputs chooses the action with this number. -/
theorem Faithful.action_of_code (ha : a < 2 ^ encoding.outputs.length)
    (houtputs : encoding.outputs.map letters = Binary.encode a encoding.outputs.length) :
    encoding.action letters = encoding.actionName? a := by
  rw [h.outputs_eq] at ha houtputs
  exact chosen_eq ha houtputs

/-- A number on the inputs chooses the reaction with this number. -/
theorem Faithful.reaction_of_code (hr : r < 2 ^ encoding.inputs.length)
    (hinputs : encoding.inputs.map letters = Binary.encode r encoding.inputs.length) :
    encoding.reaction letters = encoding.reactionName? r := by
  rw [h.inputs_eq] at hr hinputs
  exact chosen_eq hr hinputs

theorem Faithful.fluents_le (hs : s.length = encoding.automaton.stateVars.length) :
    domain.fluents.length ≤ s.length := by
  rw [hs, ← h.next_length, ← h.next.length_eq, Bit.all]
  simp

/-- A step on two codes, in any state. -/
theorem Faithful.step_codes (hs : s.length = encoding.automaton.stateVars.length)
    (ha : a < 2 ^ encoding.outputs.length) (hr : r < 2 ^ encoding.inputs.length)
    (houtputs : encoding.outputs.map letters = Binary.encode a encoding.outputs.length)
    (hinputs : encoding.inputs.map letters = Binary.encode r encoding.inputs.length) :
    encoding.automaton.step store s letters = .ok (encoding.nextState s a r) := by
  rw [h.step_eq hs, h.action_of_code ha houtputs, h.reaction_of_code hr hinputs, Bit.all,
    List.append_assoc, List.map_append, List.map_map, List.singleton_append, h.map_nextErrors,
    nextState, envErrorBit, h.domain_eq, ← h.map_affected (h.fluents_le hs)]
  rfl

/-- There is a bit for each name. -/
theorem Faithful.length_stateNames :
    encoding.automaton.stateVars.length = (stateNames domain mode).length := by
  rw [← h.next_length, ← h.next.length_eq]
  cases mode <;> simp [Bit.all, Bit.errors, stateNames]

end Bits

/-- Compiled over any manager that has not run out of numbers for variables, whatever diagrams it
holds and whatever the domain asks for, and read in any later store, the automaton makes the step of
the domain on every pair of codes. -/
theorem step_ofDomain {manager compiled : Manager} {current : Store}
    (hs : manager.store.Regular) (hsize : manager.registry.size < UInt32.size)
    (hcompile : (ofDomain domain mode).run.run manager = (.ok encoding, compiled))
    (hle : compiled.store ≤ current) (hlength : s.length = (stateNames domain mode).length)
    (ha : a < 2 ^ encoding.outputs.length) (hr : r < 2 ^ encoding.inputs.length)
    (houtputs : encoding.outputs.map letters = Binary.encode a encoding.outputs.length)
    (hinputs : encoding.inputs.map letters = Binary.encode r encoding.inputs.length) :
    encoding.domain = domain ∧ encoding.mode = mode ∧
      encoding.automaton.step current s letters = .ok (encoding.nextState s a r) := by
  obtain ⟨hsound, -, hfaithful⟩ :=
    yieldsIn_ofDomain hs hsize (fun h => False.elim h) encoding compiled hcompile
  have hfaithful := hfaithful.mono hsound.toFounded hle le_rfl
  exact ⟨hfaithful.domain_eq, hfaithful.mode_eq,
    hfaithful.step_codes (hlength.trans hfaithful.length_stateNames.symm) ha hr houtputs hinputs⟩

/-- Two pairs with the same parts. The first asks for a fluent both ways and both adds and deletes
it; the second deletes the other fluent. -/
def tangled : Domain where
  fluents := ["p", "q"]
  initial := [false, true]
  actions := Domain.actionsByName
    [{ name := "a", agent := "g", reaction := "r", required := .ofList [0], forbidden := .ofList [0]
       adds := .ofList [0], deletes := .ofList [0] },
      { name := "b", agent := "g", reaction := "r", deletes := .ofList [1] },
      { name := "c", agent := "h", reaction := "s" }]
  goal := .ofList [0]
  goalForbidden := ∅
  invariants := []

/-- In a new manager, both pairs have their effects, and their action is illegal. -/
theorem tangled_step :
    ∃ (manager compiled : Manager) (encoding : Encoding),
      Manager.create ⟨1, 1⟩ {} = .ok manager ∧ manager.store.Regular ∧
      (ofDomain tangled .errorBit).run.run manager = (.ok encoding, compiled) ∧
      encoding.outputs.length = 1 ∧ encoding.inputs.length = 1 ∧
      encoding.automaton.step compiled.store [false, true, false, false] (fun _ => false) =
        .ok [true, false, false, true] := by
  let manager : Manager :=
    { store := ⟨⟨#[.terminal], #[[], []]⟩, { slots := #[none, none] }, {}⟩ }
  have hcreate : Store.create ⟨1, 1⟩ {} = .ok manager.store := rfl
  have hs : manager.store.Regular := (Store.sound_of_create hcreate).regular
  have hsize : manager.registry.size < UInt32.size := by decide
  have hok : (match (ofDomain tangled .errorBit).run.run manager with
    | (.ok encoding, _) => encoding.outputs.length = 1 && encoding.inputs.length = 1 &&
      encoding.outputs.map (fun _ => false) = Binary.encode 0 1 &&
      encoding.inputs.map (fun _ => false) = Binary.encode 0 1 &&
      encoding.nextState [false, true, false, false] 0 0 = [true, false, false, true]
    | (.error _, _) => false) = true := by cbv
  split at hok
  · next encoding compiled hcompile =>
    simp only [Bool.and_eq_true, decide_eq_true_eq] at hok
    obtain ⟨⟨⟨⟨houtputs, hinputs⟩, hout⟩, hin⟩, hnext⟩ := hok
    rw [← houtputs] at hout
    rw [← hinputs] at hin
    have hlength : [false, true, false, false].length = (stateNames tangled .errorBit).length := rfl
    obtain ⟨-, -, hstep⟩ :=
      step_ofDomain hs hsize hcompile le_rfl hlength (by simp) (by simp) hout hin
    exact ⟨manager, compiled, encoding, rfl, hs, hcompile, houtputs, hinputs, hnext ▸ hstep⟩
  · exact absurd hok (by simp)

end Encoding

end PlanningGame
