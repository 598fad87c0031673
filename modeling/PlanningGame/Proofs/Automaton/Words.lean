import Mathlib
import PlanningGame.Proofs.Automaton.Dfa
import PlanningGame.Proofs.Diagram.Ascending

/-!
# Symbolic automata on words

One step of the symbolic form moves the code of a state to the code of its successor. By induction
on the word, the state after each prefix is the code of the state that the table reaches on it, and
it is final exactly if that state accepts. Codes beyond the last state are not reached and not
final.
-/
namespace PlanningGame.Dfa

open Manager Store.Soundness

variable {dfa given : Dfa} {registry : Registry} {store : Store} {letterVars : List Var}
  {monitor : Automaton} {q letter : Nat} {state : List Bool} {read word : List Nat}
  {letters : Valuation} {valuations : List Valuation}

/-- The state is the code of the state of the table after some letters, and is final if that state
accepts. -/
def Shows (store : Store) (dfa : Dfa) (monitor : Automaton) (state : List Bool)
    (read : List Nat) : Prop :=
  ∃ q, dfa.run? read = some q ∧ q < dfa.size ∧
    state = Binary.encode q monitor.stateVars.length ∧
      monitor.satisfies store monitor.finals state = dfa.accepts q

/-- The valuation gives the letters the bits of a number. -/
def Spells (dfa : Dfa) (letterVars : List Var) (letter : Nat) (letters : Valuation) : Prop :=
  letterVars.map letters = Binary.encode letter dfa.alphabet.length

theorem run?_append_singleton (dfa : Dfa) (read : List Nat) (letter : Nat) :
    dfa.run? (read ++ [letter]) = (dfa.run? read).bind (dfa.successor? · letter) := by
  simp [run?, List.foldlM_append]

namespace Symbolic

variable (h : Symbolic registry store dfa letterVars monitor)
include h

theorem stateOf_valuation (hstate : state.length = monitor.stateVars.length) :
    monitor.stateOf (monitor.valuation state letters) = state :=
  Valuation.map_assign letters h.nodup hstate

theorem satisfies_finals_iff (hstate : state.length = monitor.stateVars.length) :
    monitor.satisfies store monitor.finals state = dfa.accepts (Binary.decode state) := by
  rw [Bool.eq_iff_iff, Automaton.satisfies, h.finals.eval_iff, h.stateOf_valuation hstate]

theorem satisfies_finals_encode (hq : q < dfa.size) :
    monitor.satisfies store monitor.finals (Binary.encode q monitor.stateVars.length) =
      dfa.accepts q := by
  rw [h.satisfies_finals_iff (Binary.length_encode _ _),
    Binary.decode_encode (hq.trans_le h.size_le)]

/-- Codes beyond the last state are not final. -/
theorem satisfies_finals_eq_false (hdfa : dfa.WellFormed)
    (hstate : state.length = monitor.stateVars.length) (hcode : dfa.size ≤ Binary.decode state) :
    monitor.satisfies store monitor.finals state = false := by
  rw [h.satisfies_finals_iff hstate, Bool.eq_false_iff]
  exact fun haccepts =>
    (hdfa.accepting_lt _ (Std.TreeSet.contains_iff_mem.1 haccepts)).not_ge hcode

section Steps

variable (hsize : (∀ v ∈ letterVars, v ≠ 0) → registry.size < UInt32.size)
include hsize

/-- Unless all successors are zero, the letters are read off the given valuation. -/
theorem move_valuation (hletter : letter < 2 ^ dfa.alphabet.length)
    (hspells : dfa.Spells letterVars letter letters) :
    dfa.move q (Binary.decode (letterVars.map (monitor.valuation state letters))) =
      dfa.move q letter := by
  by_cases hzero : ∀ v ∈ letterVars, v ≠ 0
  · have hregistry := hsize hzero
    have hkept : ∀ v ∈ letterVars, monitor.valuation state letters v = letters v := by
      refine fun v hv => Valuation.assign_of_not_mem (fun hmem => ?_) letters state
      have hrole := h.role_of_mem_letterVars hregistry le_rfl hv
      rw [h.role_of_mem_stateVars hregistry le_rfl hmem] at hrole
      exact absurd (Option.some.inj hrole) (by simp)
    rw [List.map_congr_left hkept, hspells, Binary.decode_encode hletter]
  · have hmove : ∀ letter, dfa.move q letter = 0 := fun letter =>
      by_contra fun hne => hzero (h.letters_ne_zero q letter hne)
    rw [hmove, hmove]

theorem step_eq (hq : q < dfa.size) (hletter : letter < 2 ^ dfa.alphabet.length)
    (hspells : dfa.Spells letterVars letter letters) :
    monitor.step store (Binary.encode q monitor.stateVars.length) letters =
      .ok (Binary.encode (dfa.move q letter) monitor.stateVars.length) := by
  have hlength : (Binary.encode q monitor.stateVars.length).length = monitor.initial.length := by
    rw [h.initial_eq, Binary.length_encode, Binary.length_encode]
  rw [Automaton.step, if_pos hlength, h.map_eval, h.stateOf_valuation (Binary.length_encode _ _),
    Binary.decode_encode (hq.trans_le h.size_le), h.move_valuation hsize hletter hspells]

variable (hdfa : dfa.WellFormed)
include hdfa

/-- A letter moves a state that shows what was read before to one that shows the letter too. -/
theorem exists_step (hstate : Shows store dfa monitor state read)
    (hletter : letter < 2 ^ dfa.alphabet.length) (hspells : dfa.Spells letterVars letter letters) :
    ∃ next, monitor.step store state letters = .ok next ∧
      Shows store dfa monitor next (read ++ [letter]) := by
  obtain ⟨q, hrun, hq, rfl, -⟩ := hstate
  obtain ⟨hsuccessor, hmove⟩ := hdfa.successor?_eq hq hletter
  refine ⟨_, h.step_eq hsize hq hletter hspells, dfa.move q letter, ?_, hmove, rfl,
    h.satisfies_finals_encode hmove⟩
  rw [run?_append_singleton, hrun, Option.bind_some, hsuccessor]

/-- By induction on the word, generalised over the letters that were read before it. -/
theorem exists_run (hstate : Shows store dfa monitor state read)
    (hword : ∀ letter ∈ word, letter < 2 ^ dfa.alphabet.length)
    (hspells : List.Forall₂ (dfa.Spells letterVars) word valuations) :
    ∃ states, monitor.run store state valuations = .ok states ∧
      List.Forall₂ (Shows store dfa monitor) (state :: states) (word.inits.map (read ++ ·)) := by
  induction hspells generalizing state read with
  | nil =>
    refine ⟨[], rfl, ?_⟩
    simpa using hstate
  | cons hhead _ ih =>
    obtain ⟨hletter, hword⟩ := List.forall_mem_cons.1 hword
    obtain ⟨next, hstep, hnext⟩ := h.exists_step hsize hdfa hstate hletter hhead
    obtain ⟨states, hrun, hshows⟩ := ih hnext hword
    refine ⟨next :: states, Automaton.run_cons hstep hrun, ?_⟩
    simp only [List.inits_cons, List.map_cons, List.append_nil, List.map_map]
    refine .cons hstate ?_
    simpa [Function.comp_def] using hshows

end Steps

end Symbolic

/-- Encoded over any manager that has not run out of numbers for variables, and run in any later
store. Along every word the automaton shows the state of the table after each prefix, and no code
beyond the last state is final. -/
theorem symbolic_reads_words {manager later : Manager} {last : Store}
    (hgiven : given.checked = .ok dfa) (hs : manager.store.Regular)
    (hsize : manager.registry.size < UInt32.size)
    (hrun : dfa.symbolic.run.run manager = (.ok monitor, later)) (hle : later.store ≤ last) :
    ∃ letterVars,
      List.Forall₂ (fun name v => later.registry.shared? name = some (v, .alphabet)) dfa.alphabet
        letterVars ∧
      dfa.size ≤ 2 ^ monitor.stateVars.length ∧
      (∀ (word : List Nat) (valuations : List Valuation),
        (∀ letter ∈ word, letter < 2 ^ dfa.alphabet.length) →
        List.Forall₂ (dfa.Spells letterVars) word valuations →
          ∃ states, monitor.run last monitor.initial valuations = .ok states ∧
            List.Forall₂ (Shows last dfa monitor) (monitor.initial :: states) word.inits) ∧
      ∀ code : List Bool, code.length = monitor.stateVars.length →
        dfa.size ≤ Binary.decode code → monitor.satisfies last monitor.finals code = false := by
  have hdfa := wellFormed_of_checked hgiven
  obtain ⟨hregular, -, letterVars, h, -, hlater⟩ := yields_symbolic hs hdfa hsize monitor later hrun
  have h := h.mono (founded hregular) hle le_rfl
  refine ⟨letterVars, h.letters, h.size_le, fun word valuations hword hspells => ?_,
    fun code hlength => h.satisfies_finals_eq_false hdfa hlength⟩
  have hinitial : Shows last dfa monitor monitor.initial [] :=
    ⟨dfa.initial, rfl, hdfa.initial_lt, h.initial_eq,
      h.initial_eq ▸ h.satisfies_finals_encode hdfa.initial_lt⟩
  simpa using h.exists_run hlater hdfa hinitial hword hspells

/-- Accepts one fluent alone and then the other one alone. Anything else starts over. -/
def inTurn : Dfa where
  alphabet := ["a", "b"]
  initial := 0
  accepting := (∅ : Std.TreeSet Nat).insert 2
  successors := [[0, 0, 1, 0], [0, 2, 0, 0], [0, 0, 0, 0]]

/-- The variable of the second letter was there before, with a lower number than that of the first
one. The word is accepted at its end. -/
theorem inTurn_reads_word :
    ∃ (origin manager later : Manager) (claimed : List Var) (monitor : Automaton)
      (states : List (List Bool)),
      Manager.create ⟨1, 1⟩ {} = .ok origin ∧
      (claimVars .alphabet ["b"]).run.run origin = (.ok claimed, manager) ∧
      inTurn.checked = .ok inTurn ∧ manager.store.Regular ∧
      manager.registry.size < UInt32.size ∧
      inTurn.symbolic.run.run manager = (.ok monitor, later) ∧
      List.Forall₂ (fun name v => later.registry.shared? name = some (v, .alphabet)) ["a", "b"]
        [4, 1] ∧
      monitor.run later.store monitor.initial ([1, 2, 1].map fun letter =>
        Valuation.assign (fun _ => false) [4, 1] (Binary.encode letter 2)) = .ok states ∧
      List.Forall₂ (Shows later.store inTurn monitor) (monitor.initial :: states)
        [[], [1], [1, 2], [1, 2, 1]] ∧
      inTurn.run? [1, 2, 1] = some 2 ∧ inTurn.accepts 2 = true := by
  let origin : Manager := { store := .blank }
  have hchecked : inTurn.checked = .ok inTurn := by cbv
  have hs : origin.store.Regular := Store.replayable_blank.regular
  have hok : answersWith (claimVars .alphabet ["b"]) origin (fun _ manager =>
      answersWith inTurn.symbolic manager fun _ later =>
        decide (manager.registry.size ≤ 1 ∧ later.registry.shared? "a" = some (4, .alphabet) ∧
          later.registry.shared? "b" = some (1, .alphabet))) = true := by
    set_option maxRecDepth 1500 in cbv
  obtain ⟨claimed, manager, hclaim, hok⟩ := exists_run_of_answersWith hok
  obtain ⟨monitor, later, hrun, hok⟩ := exists_run_of_answersWith hok
  obtain ⟨hsize, ha, hb⟩ := of_decide_eq_true hok
  have hsize : manager.registry.size < UInt32.size := hsize.trans_lt (by decide)
  obtain ⟨hregular, -⟩ := yields_claimVars hs .alphabet ["b"] claimed manager hclaim
  obtain ⟨letterVars, hletters, -, hwords, -⟩ :=
    symbolic_reads_words hchecked hregular hsize hrun le_rfl
  obtain rfl : letterVars = [4, 1] := by
    obtain ⟨v, others, hv, hothers, rfl⟩ := List.forall₂_cons_left_iff.1 hletters
    obtain ⟨w, rest, hw, hrest, rfl⟩ := List.forall₂_cons_left_iff.1 hothers
    obtain rfl := List.forall₂_nil_left_iff.1 hrest
    obtain rfl : v = 4 := congrArg Prod.fst (Option.some.inj (hv.symm.trans ha))
    obtain rfl : w = 1 := congrArg Prod.fst (Option.some.inj (hw.symm.trans hb))
    rfl
  obtain ⟨states, hstates, hshows⟩ := hwords [1, 2, 1] ([1, 2, 1].map fun letter =>
    Valuation.assign (fun _ => false) [4, 1] (Binary.encode letter 2)) (by decide) (by
      refine List.forall₂_map_right_iff.2 (List.forall₂_same.2 fun letter _ => ?_)
      exact Valuation.map_assign _ (by decide) (Binary.length_encode letter 2))
  exact ⟨origin, manager, later, claimed, monitor, states, rfl, hclaim, hchecked, hregular, hsize,
    hrun, hletters, hstates, hshows, by decide, by cbv⟩

end PlanningGame.Dfa
