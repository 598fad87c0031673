import Mathlib
import PlanningGame.Proofs.Encoding.Canonical
import PlanningGame.Proofs.Encoding.Sharing

/-!
# Compiled invariants

An invariant says that at most one of its positive fluents holds, and that all negative ones hold
if one does. The condition that is compiled for it treats both kinds of fluents alike: a negative
fluent that holds excludes the positive ones as well. So it says the same without negative fluents,
and with a negative fluent it leaves no state in which a positive one holds.
-/
namespace PlanningGame

namespace Invariant

variable {invariant : Invariant} {s : List Bool}

/-- At most one positive fluent holds, and if one does, every negative fluent holds. -/
structure Mutex (invariant : Invariant) (s : List Bool) : Prop where
  alone : ∀ i ∈ invariant.positive, ∀ j ∈ invariant.positive,
    s[i]? = some true → s[j]? = some true → i = j
  backed : ∀ i ∈ invariant.positive, s[i]? = some true →
    ∀ j ∈ invariant.negative, s[j]? = some true

/-- No positive fluent holds, and the negative ones have all the same value. -/
structure Barred (invariant : Invariant) (s : List Bool) : Prop where
  positive : ∀ i ∈ invariant.positive, s[i]? = some false
  negative : ∃ value, ∀ i ∈ invariant.negative, s[i]? = some value

theorem Holds.mutex (h : invariant.Holds s) : invariant.Mutex s where
  alone i hi j hj hholds hholds' := by
    by_contra hne
    have hfails := (h.positive i hi hholds).1 j hj (Ne.symm hne)
    exact absurd (hholds'.symm.trans hfails) (by simp)
  backed i hi hholds := (h.positive i hi hholds).2

theorem getElem?_eq_false {i : Nat} (hlt : i < s.length) (h : ¬ s[i]? = some true) :
    s[i]? = some false := by
  rw [List.getElem?_eq_getElem hlt] at h ⊢
  simpa using h

theorem Mutex.holds (h : invariant.Mutex s) (hpositive : ∀ i ∈ invariant.positive, i < s.length)
    (hnone : ∀ i, i ∉ invariant.negative) : invariant.Holds s where
  positive i hi hholds := ⟨fun j hj hne => getElem?_eq_false (hpositive j hj) fun hholds' =>
    hne (h.alone j hj i hi hholds' hholds), h.backed i hi hholds⟩
  negative i hi := absurd hi (hnone i)

theorem Barred.holds (h : invariant.Barred s) : invariant.Holds s where
  positive i hi hholds := absurd ((h.positive i hi).symm.trans hholds) (by simp)
  negative i hi hholds := by
    obtain ⟨value, hvalue⟩ := h.negative
    obtain rfl : value = true := Option.some.inj ((hvalue i hi).symm.trans hholds)
    exact ⟨h.positive, fun j hj _ => hvalue j hj⟩

/-- A positive fluent that holds needs the negative one, which excludes it. -/
theorem Holds.barred (h : invariant.Holds s) (hpositive : ∀ i ∈ invariant.positive, i < s.length)
    (hnegative : ∀ i ∈ invariant.negative, i < s.length) (hsome : ∃ i, i ∈ invariant.negative) :
    invariant.Barred s where
  positive i hi := by
    refine getElem?_eq_false (hpositive i hi) fun hholds => ?_
    obtain ⟨j, hj⟩ := hsome
    have hneeded := (h.positive i hi hholds).2 j hj
    have hfails := (h.negative j hj hneeded).1 i hi
    exact absurd (hholds.symm.trans hfails) (by simp)
  negative := by
    by_cases hany : ∃ i ∈ invariant.negative, s[i]? = some true
    · obtain ⟨i, hi, hholds⟩ := hany
      refine ⟨true, fun j hj => ?_⟩
      by_cases heq : j = i
      · exact heq ▸ hholds
      · exact (h.negative i hi hholds).2 j hj heq
    · refine ⟨false, fun j hj => getElem?_eq_false (hnegative j hj) fun hholds => ?_⟩
      exact hany ⟨j, hj, hholds⟩

/-- What is compiled says what is declared, and bars the positive fluents if there is a negative
one. -/
theorem holds_iff (hpositive : ∀ i ∈ invariant.positive, i < s.length)
    (hnegative : ∀ i ∈ invariant.negative, i < s.length) :
    invariant.Holds s ↔
      invariant.Mutex s ∧ ((∃ i, i ∈ invariant.negative) → invariant.Barred s) := by
  refine ⟨fun h => ⟨h.mutex, h.barred hpositive hnegative⟩, fun ⟨hmutex, hbarred⟩ => ?_⟩
  by_cases hsome : ∃ i, i ∈ invariant.negative
  · exact (hbarred hsome).holds
  · exact hmutex.holds hpositive (not_exists.1 hsome)

end Invariant

theorem Domain.WellFormed.admits_iff {domain : Domain} (hdomain : domain.WellFormed) {s : List Bool}
    (hs : domain.fluents.length ≤ s.length) :
    domain.Admits s ↔ ∀ invariant ∈ domain.invariants,
      invariant.Mutex s ∧ ((∃ i, i ∈ invariant.negative) → invariant.Barred s) :=
  forall₂_congr fun invariant hmem => Invariant.holds_iff
    (fun i hi => (hdomain.positive_lt invariant hmem i hi).trans_le hs)
    fun i hi => (hdomain.negative_lt invariant hmem i hi).trans_le hs

namespace Encoding

open Manager

variable {parts : DomainParts} {domain : Domain} {mode : AgentErrorMode}
  {origin manager compiled current : Manager} {encoding : Encoding} {sizes : TableSizes}
  {journal : Journal}

/-- The condition of the invariants is built in any manager, as it does not use other diagrams. -/
theorem answers_invariantsEdge (hs : current.store.Replayable) {id : BlockId} {vars : List Var}
    (hid : Owns current.registry id vars) (hdomain : domain.WellFormed)
    (hfluents : domain.fluents.length ≤ vars.length) :
    Answers (StandsIn Store.Regular current.registry) (invariantsEdge domain id) current
      fun e later => later.store.Denotes e fun a => domain.Admits (vars.map a) where
  completes := (paced_invariantsEdge (paired_cleared hs) domain id).completes
    (completes_invariantsEdge hid ⟨Store.sound_blank, rfl⟩ hdomain hfluents)
  yields := yields_invariantsEdge hid ⟨hs.regular, rfl⟩ domain

/-- Whatever the manager has been used for, the condition of the invariants of a compiled domain is
built again unless positions run out. In each state it says that every invariant is met as declared,
and that no positive fluent of an invariant with a negative one holds. The states that play may use
are those that also are safe. -/
theorem compiled_invariants_exact (hparts : Domain.ofParts parts = .ok domain)
    (hcreate : Manager.create sizes journal = .ok origin) (hbefore : origin.Leads manager)
    (hsize : manager.registry.size < UInt32.size)
    (hcompile : (ofDomain domain mode).run.run manager = (.ok encoding, compiled))
    (hbetween : compiled.Leads current) :
    Answers (StandsIn Store.Regular current.registry)
      (invariantsEdge domain encoding.automaton.block) current fun e later =>
        later.store.Denotes e (fun a => ∀ invariant ∈ domain.invariants,
          invariant.Mutex (encoding.automaton.stateOf a) ∧
            ((∃ i, i ∈ invariant.negative) → invariant.Barred (encoding.automaton.stateOf a))) ∧
        later.store.Denotes encoding.invariant fun a => later.store.eval e a = true ∧
          Safe domain encoding.automaton.initial (encoding.automaton.stateOf a)
            (encoding.action a) mode := by
  have hdomain := Domain.wellFormed_of_ofParts hparts
  obtain ⟨hmanager, -⟩ := hbefore.keeps (paired_of_create hcreate).1
  obtain ⟨hcurrent, hle⟩ := hbetween.keeps (paired_of_compiled hmanager hcompile)
  obtain ⟨hs, -, h⟩ := yieldsIn_ofDomain hmanager.store.left.regular hsize
    (fun h => False.elim h) encoding compiled hcompile
  have hfluents := h.le_stateOf_length
  simp only [Automaton.stateOf_length] at hfluents
  refine (answers_invariantsEdge hcurrent.store.left (h.placed.mono hle.2).owns hdomain
    (hfluents default)).weaken fun e later hlater hle' he => ⟨?_, ?_⟩
  · exact he.congr fun a => hdomain.admits_iff (h.le_stateOf_length a)
  · refine (h.invariant.mono hs.toFounded (hle.trans hle').1).congr fun a => ?_
    rw [he.eval_iff]
    rfl

/-- One positive and one negative fluent. -/
def guardedParts : DomainParts where
  fluents := ["p", "q"]
  initial := [false, false]
  actions := [{ name := "gr", agent := "g", reaction := "r" }]
  goal := .ofList [0]
  invariants := [{ positive := .ofList [0], negative := .ofList [1] }]

/-- The domain of these parts. -/
def guarded : Domain where
  fluents := guardedParts.fluents
  initial := guardedParts.initial
  actions := Domain.actionsByName guardedParts.actions
  goal := guardedParts.goal
  goalForbidden := ∅
  invariants := guardedParts.invariants

/-- In a new manager, the condition of this invariant is that the positive fluent does not hold. -/
theorem guarded_invariants_exact :
    ∃ (origin compiled later : Manager) (encoding : Encoding) (e : Edge),
      Manager.create ⟨1, 1⟩ {} = .ok origin ∧ Domain.ofParts guardedParts = .ok guarded ∧
      origin.Leads origin ∧ origin.registry.size < UInt32.size ∧
      (ofDomain guarded .invariant).run.run origin = (.ok encoding, compiled) ∧
      compiled.Leads compiled ∧ encoding.automaton.stateVars = [1, 2, 3] ∧
      (invariantsEdge guarded encoding.automaton.block).run.run compiled = (.ok e, later) ∧
      ∀ a, later.store.eval e a = true ↔ a 1 = false := by
  let origin : Manager := { store := .blank }
  have hcreate : Manager.create ⟨1, 1⟩ {} = .ok origin := rfl
  have hparts : Domain.ofParts guardedParts = .ok guarded := rfl
  have hsize : origin.registry.size < UInt32.size := by decide
  have hok : answersWith (ofDomain guarded .invariant) origin (fun encoding compiled =>
      decide (encoding.automaton.stateVars = [1, 2, 3]) &&
        answersWith (invariantsEdge guarded encoding.automaton.block) compiled
          fun _ _ => true) = true := by
    cbv
  obtain ⟨encoding, compiled, hcompile, hok⟩ := exists_run_of_answersWith hok
  rw [Bool.and_eq_true, decide_eq_true_eq] at hok
  obtain ⟨hvars, hok⟩ := hok
  obtain ⟨e, later, hrun, -⟩ := exists_run_of_answersWith hok
  obtain ⟨-, -, he, -⟩ := (compiled_invariants_exact hparts hcreate (.refl origin) hsize hcompile
    (.refl compiled)).yields e later hrun
  refine ⟨origin, compiled, later, encoding, e, hcreate, hparts, .refl origin, hsize, hcompile,
    .refl compiled, hvars, hrun, fun a => (he.eval_iff a).trans ?_⟩
  have hstate : encoding.automaton.stateOf a = [a 1, a 2, a 3] := by
    rw [Automaton.stateOf, hvars]
    rfl
  rw [hstate]
  constructor
  · intro h
    obtain ⟨-, hbarred⟩ := h guardedParts.invariants[0] (by simp [guarded, guardedParts])
    have hfails := (hbarred ⟨1, by decide⟩).positive 0 (by decide)
    simpa using hfails
  · intro hfails invariant hmem
    obtain rfl : invariant = guardedParts.invariants[0] := by
      simpa [guarded, guardedParts] using hmem
    have hbarred : guardedParts.invariants[0].Barred [a 1, a 2, a 3] := by
      refine ⟨fun i hi => ?_, a 2, fun i hi => ?_⟩
      · obtain rfl : 0 = i := by simpa [guardedParts] using hi
        simpa using hfails
      · obtain rfl : 1 = i := by simpa [guardedParts] using hi
        rfl
    exact ⟨hbarred.holds.mutex, fun _ => hbarred⟩

/-- Both fluents hold, as the invariant declares. Neither its condition nor the states that play may
use have this state. -/
theorem exists_state_barred :
    ∃ (origin compiled later : Manager) (encoding : Encoding) (e : Edge) (a : Valuation),
      Manager.create ⟨1, 1⟩ {} = .ok origin ∧ Domain.ofParts guardedParts = .ok guarded ∧
      (ofDomain guarded .errorBit).run.run origin = (.ok encoding, compiled) ∧
      (invariantsEdge guarded encoding.automaton.block).run.run compiled = (.ok e, later) ∧
      encoding.automaton.stateOf a = [true, true, false, false] ∧
      (∀ invariant ∈ guarded.invariants, invariant.Mutex (encoding.automaton.stateOf a)) ∧
      later.store.eval e a = false ∧ compiled.store.eval encoding.invariant a = false := by
  let origin : Manager := { store := .blank }
  let a : Valuation := fun v => decide (v ≤ 2)
  have hok : answersWith (ofDomain guarded .errorBit) origin (fun encoding compiled =>
      decide (encoding.automaton.stateVars = [1, 2, 3, 4] ∧
        compiled.store.eval encoding.invariant a = false) &&
        answersWith (invariantsEdge guarded encoding.automaton.block) compiled
          fun e later => decide (later.store.eval e a = false)) = true := by
    cbv
  obtain ⟨encoding, compiled, hcompile, hok⟩ := exists_run_of_answersWith hok
  rw [Bool.and_eq_true, decide_eq_true_eq] at hok
  obtain ⟨⟨hvars, hinvariant⟩, hok⟩ := hok
  obtain ⟨e, later, hrun, he⟩ := exists_run_of_answersWith hok
  have hstate : encoding.automaton.stateOf a = [true, true, false, false] := by
    rw [Automaton.stateOf, hvars]
    decide
  refine ⟨origin, compiled, later, encoding, e, a, rfl, rfl, hcompile, hrun, hstate,
    fun invariant hmem => ?_, of_decide_eq_true he, hinvariant⟩
  obtain rfl : invariant = guardedParts.invariants[0] := by
    simpa [guarded, guardedParts] using hmem
  rw [hstate]
  refine ⟨fun i hi j hj _ _ => ?_, fun _ _ _ j hj => ?_⟩
  · obtain rfl : 0 = i := by simpa [guardedParts] using hi
    simpa [guardedParts] using hj
  · obtain rfl : 1 = j := by simpa [guardedParts] using hj
    rfl

end Encoding

end PlanningGame
