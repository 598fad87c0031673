import Mathlib
import PlanningGame.Proofs.Encoding.Refinement

/-!
# Canonical encodings

If neither the goal nor the conditions of a pair ask for a fluent both ways, then all diagrams of an
encoding are ordered, whatever else the manager holds, and each is the only one of its function. A
goal that asks for a fluent both ways is compiled to a cube with two literals over one variable.
This diagram is not ordered, and it is not the constant false, although no state satisfies it.
-/
namespace PlanningGame

namespace Encoding

open Diagram (CopiesEach)

/-- The diagrams of a pair. -/
def pairDiagrams (pair : PairPredicates) : List Edge :=
  [pair.agent, pair.reaction, pair.both]

/-- All diagrams that an encoding keeps. -/
def diagrams (encoding : Encoding) : List Edge :=
  encoding.automaton.next ++
    [encoding.automaton.finals, encoding.invariant, encoding.agentMutex, encoding.envMutex,
      encoding.agentPrecondition, encoding.envPrecondition] ++
    encoding.predicates.flatMap fun entry => pairDiagrams entry.2

variable {registry : Registry} {store : Store} {domain : Domain} {mode : AgentErrorMode}
  {encoding : Encoding}

theorem Shows.has {choice answer : Valuation → Option String} {action : Action}
    {pair : PairPredicates} (h : Shows store choice answer (action, pair)) :
    ∀ e ∈ pairDiagrams pair, store.Has e := by
  simp only [pairDiagrams, List.forall_mem_cons, List.not_mem_nil, false_implies, implies_true,
    and_true]
  exact ⟨h.agent.has, h.reaction.has, h.both.has⟩

theorem Faithful.has_diagrams (h : Faithful registry store domain mode encoding) :
    ∀ e ∈ encoding.diagrams, store.Has e := by
  have hpredicates : ∀ entry ∈ encoding.predicates, ∀ e ∈ pairDiagrams entry.2, store.Has e := by
    intro entry hentry
    obtain ⟨action, -, -, hshows⟩ := Store.exists_of_forall₂ h.predicates entry hentry
    exact hshows.has
  unfold diagrams
  simp only [List.forall_mem_append, List.forall_mem_cons, List.not_mem_nil, false_implies,
    implies_true, and_true, List.mem_flatMap, forall_exists_index, and_imp]
  exact ⟨⟨h.next.has, h.finals.has, h.invariant.has, h.agentMutex.has, h.envMutex.has,
      h.agentPrecondition.has, h.envPrecondition.has⟩,
    fun e entry hentry => hpredicates entry hentry e⟩

theorem Faithful.le_stateOf_length (h : Faithful registry store domain mode encoding)
    (a : Valuation) : domain.fluents.length ≤ (encoding.automaton.stateOf a).length := by
  rw [Automaton.stateOf_length, ← h.next_length, ← h.next.length_eq, Bit.all]
  simp

/-- No state of the automaton is final if no state of the domain is. -/
theorem Faithful.eval_finals_of_never (h : Faithful registry store domain mode encoding)
    (hdomain : domain.WellFormed)
    (hnever : ∀ s, s.length = domain.fluents.length → domain.isGoal s ≠ .ok true) (a : Valuation) :
    store.eval encoding.automaton.finals a = false := by
  rw [← Bool.not_eq_true, h.finals.eval_iff]
  have hlength : ((encoding.automaton.stateOf a).take domain.fluents.length).length =
      domain.fluents.length := List.length_take_of_le (h.le_stateOf_length a)
  rw [← List.take_append_drop domain.fluents.length (encoding.automaton.stateOf a),
    hdomain.isGoal_append_iff hlength]
  exact hnever _ hlength

/-- Copies of an encoding have copies of its diagrams. -/
theorem Copies.diagrams {s t : Store} {encoding encoding' : Encoding}
    (h : Encoding.Copies s t encoding encoding') :
    CopiesEach s t encoding.diagrams encoding'.diagrams := by
  have hpairs : CopiesEach s t (encoding.predicates.flatMap fun entry => pairDiagrams entry.2)
      (encoding'.predicates.flatMap fun entry => pairDiagrams entry.2) :=
    List.rel_flatMap h.predicates fun _ _ hp => .cons hp.2.agent (.cons hp.2.reaction
      (.cons hp.2.both .nil))
  refine List.rel_append (List.rel_append h.automaton.next ?_) hpairs
  exact .cons h.automaton.finals (.cons h.invariant (.cons h.agentMutex (.cons h.envMutex
    (.cons h.agentPrecondition (.cons h.envPrecondition .nil)))))

/-- Compiled in any manager, an accepted domain that asks for no fluent both ways has ordered
diagrams over nodes that are not repeated. So a diagram of the encoding is a constant exactly if it
is never true, or always. In particular, the final states are the constant false if no state
satisfies the goal. -/
theorem diagrams_canonical {parts : DomainParts} (hparts : Domain.ofParts parts = .ok domain)
    (hconsistent : Consistent domain) {manager compiled : Manager} (hs : manager.store.Replayable)
    (hsize : manager.registry.size < UInt32.size)
    (hcompile : (ofDomain domain mode).run.run manager = (.ok encoding, compiled)) :
    compiled.store.Founded ∧
      (∀ e ∈ encoding.diagrams, compiled.store.Has e ∧ compiled.store.Ascends e ∧
        (e = .zero ↔ ∀ a, compiled.store.eval e a = false) ∧
        (e = .one ↔ ∀ a, compiled.store.eval e a = true)) ∧
      ((∀ s, s.length = domain.fluents.length → domain.isGoal s ≠ .ok true) →
        encoding.automaton.finals = .zero) := by
  have hcompiled := replayable_of_compiled hs hcompile
  obtain ⟨encoding', ordered, hm, hpaired, hfaithful, hcopies⟩ :=
    exists_faithful_copy hs hsize hconsistent hcompile hcompiled le_rfl
  have hdiagrams : ∀ e ∈ encoding.diagrams, compiled.store.Has e ∧ compiled.store.Ascends e := by
    intro e he
    obtain ⟨f, hf, hcopy : compiled.store.Copies ordered.store e f⟩ :=
      Store.exists_of_forall₂ hcopies.diagrams.flip e he
    exact ⟨hcopy.has_left hcompiled.toFounded,
      hcopy.ascends (hm.sound.toReduced.ascends (hfaithful.has_diagrams f hf))⟩
  refine ⟨hcompiled.toFounded, fun e he => ?_, fun hnever => ?_⟩
  · obtain ⟨hhas, hascends⟩ := hdiagrams e he
    exact ⟨hhas, hascends, hascends.eq_zero_iff hcompiled hhas,
      hascends.eq_one_iff hcompiled hhas⟩
  · rw [← hcopies.automaton.finals.eq_zero_iff hcompiled.toFounded hm.sound.founded,
      hm.sound.toReduced.eq_zero_iff hfaithful.finals.has]
    exact hfaithful.eval_finals_of_never (Domain.wellFormed_of_ofParts hparts) hnever

/-- In a new manager, a domain with two actions is compiled to canonical diagrams. -/
theorem switch_diagrams_canonical :
    ∃ (manager compiled : Manager) (encoding : Encoding),
      Manager.create ⟨1, 1⟩ {} = .ok manager ∧ Domain.ofParts switchParts = .ok switch ∧
      Consistent switch ∧ manager.store.Replayable ∧
      (ofDomain switch .errorBit).run.run manager = (.ok encoding, compiled) ∧
      compiled.store.Founded ∧
      ∀ e ∈ encoding.diagrams, compiled.store.Ascends e ∧
        (e = .zero ↔ ∀ a, compiled.store.eval e a = false) := by
  let manager : Manager := { store := .blank }
  have hs : manager.store.Replayable := Store.replayable_blank
  have hsize : manager.registry.size < UInt32.size := by decide
  have hparts : Domain.ofParts switchParts = .ok switch := rfl
  have hok : answersWith (ofDomain switch .errorBit) manager (fun _ _ => true) = true := by cbv
  obtain ⟨encoding, compiled, hcompile, -⟩ := exists_run_of_answersWith hok
  obtain ⟨hfounded, hcanonical, -⟩ :=
    diagrams_canonical hparts switch_consistent hs hsize hcompile
  exact ⟨manager, compiled, encoding, rfl, hparts, switch_consistent, hs, hcompile, hfounded,
    fun e he => ⟨(hcanonical e he).2.1, (hcanonical e he).2.2.1⟩⟩

/-- One fluent and one pair. The goal asks for the fluent both ways. -/
def tornParts : DomainParts where
  fluents := ["p"]
  initial := [false]
  actions := [{ name := "a", agent := "g", reaction := "r" }]
  goal := .ofList [0]
  goalForbidden := .ofList [0]

/-- The domain of these parts. -/
def torn : Domain where
  fluents := tornParts.fluents
  initial := tornParts.initial
  actions := Domain.actionsByName tornParts.actions
  goal := tornParts.goal
  goalForbidden := tornParts.goalForbidden
  invariants := []

theorem torn_isGoal (s : List Bool) : torn.isGoal s ≠ .ok true := by
  intro hgoal
  obtain ⟨hholds, hfails⟩ := Domain.isGoal_eq_true_iff.1 hgoal
  have htrue := hholds 0 (by decide)
  have hfalse := hfails 0 (by decide)
  exact absurd (htrue.symm.trans hfalse) (by simp)

/-- In a new manager, this domain has final states that are never reached and are not the constant
false. -/
theorem torn_finals_ne_zero :
    ∃ (manager compiled : Manager) (encoding : Encoding),
      Manager.create ⟨1, 1⟩ {} = .ok manager ∧ Domain.ofParts tornParts = .ok torn ∧
      (ofDomain torn .invariant).run.run manager = (.ok encoding, compiled) ∧
      (∀ s, torn.isGoal s ≠ .ok true) ∧
      (∀ a, compiled.store.eval encoding.automaton.finals a = false) ∧
      encoding.automaton.finals ≠ .zero ∧ ¬ compiled.store.Reduced := by
  let manager : Manager :=
    { store := ⟨⟨#[.terminal], #[[], []]⟩, { slots := #[none, none] }, {}⟩ }
  have hcreate : Store.create ⟨1, 1⟩ {} = .ok manager.store := rfl
  have hs : manager.store.Regular := (Store.sound_of_create hcreate).regular
  have hsize : manager.registry.size < UInt32.size := by decide
  have hparts : Domain.ofParts tornParts = .ok torn := rfl
  have hok : (match (ofDomain torn .invariant).run.run manager with
    | (.ok _, _) => true
    | (.error _, _) => false) = true := by cbv
  split at hok
  · next encoding compiled hcompile =>
    obtain ⟨hsound, -, h⟩ :=
      yieldsIn_ofDomain hs hsize (fun h => False.elim h) encoding compiled hcompile
    have hfalse := h.eval_finals_of_never (Domain.wellFormed_of_ofParts hparts)
      fun s _ => torn_isGoal s
    refine ⟨manager, compiled, encoding, rfl, hparts, hcompile, torn_isGoal, hfalse,
      h.finals_ne_zero, fun hr => ?_⟩
    exact h.finals_ne_zero ((hr.eq_zero_iff h.finals.has).2 hfalse)
  · exact absurd hok (by simp)

end Encoding

end PlanningGame
