import Mathlib
import PlanningGame.Proofs.Diagram.Sizes
import PlanningGame.Proofs.Encoding.Copies

/-!
# Reached managers

A manager is shared by everything that creates variables, builds diagrams, compiles domains or
solves games in it. All of these are calls with operands from its store, and some fail. As long as
no call uses up all positions of the store, a reached manager still has all that it had before, and
room for more.
-/
namespace PlanningGame

open Diagram

variable {store : Store}

/-- The diagrams of the automaton lie in the store. -/
structure Automaton.Belongs (store : Store) (automaton : Automaton) : Prop where
  next : ∀ e ∈ automaton.next, store.Has e
  finals : store.Has automaton.finals

/-- The diagrams of a pair lie in the store. -/
structure PairPredicates.Belongs (store : Store) (pair : PairPredicates) : Prop where
  agent : store.Has pair.agent
  reaction : store.Has pair.reaction
  both : store.Has pair.both

/-- The diagrams of the encoding lie in the store. -/
structure Encoding.Belongs (store : Store) (encoding : Encoding) : Prop where
  automaton : encoding.automaton.Belongs store
  invariant : store.Has encoding.invariant
  agentMutex : store.Has encoding.agentMutex
  envMutex : store.Has encoding.envMutex
  agentPrecondition : store.Has encoding.agentPrecondition
  envPrecondition : store.Has encoding.envPrecondition
  predicates : ∀ p ∈ encoding.predicates, p.2.Belongs store

section Copies

variable (hs : store.Founded)
include hs

theorem copiesEach_of_has {edges : List Edge} (h : ∀ e ∈ edges, store.Has e) :
    CopiesEach store store edges edges :=
  List.forall₂_same.2 fun e he => .of_has hs (h e he)

theorem copiesMap_of_has {images : Substitution}
    (h : ∀ (v : Var) (e : Edge), images[v]? = some e → store.Has e) :
    CopiesMap store store images images := by
  intro v
  cases he : images[v]? with
  | none => exact .none
  | some e => exact .some (.of_has hs (h v e he))

theorem Automaton.Belongs.copies {automaton : Automaton} (h : automaton.Belongs store) :
    Automaton.Copies store store automaton automaton :=
  ⟨rfl, rfl, rfl, rfl, rfl, copiesEach_of_has hs h.next, .of_has hs h.finals⟩

theorem Encoding.Belongs.copies {encoding : Encoding} (h : encoding.Belongs store) :
    Encoding.Copies store store encoding encoding where
  domain_eq := rfl
  automaton := h.automaton.copies hs
  invariant := .of_has hs h.invariant
  agentMutex := .of_has hs h.agentMutex
  envMutex := .of_has hs h.envMutex
  agentPrecondition := .of_has hs h.agentPrecondition
  envPrecondition := .of_has hs h.envPrecondition
  predicates := List.forall₂_same.2 fun p hp =>
    have hpair := h.predicates p hp
    ⟨rfl, .of_has hs hpair.agent, .of_has hs hpair.reaction, .of_has hs hpair.both⟩
  agentNames_eq := rfl
  reactionNames_eq := rfl
  outputs_eq := rfl
  inputs_eq := rfl
  mode_eq := rfl

end Copies

/-- An operation on diagrams ends alike in a store with room when it is run twice. -/
theorem Request.paced_run (h : store.Paired store) (r : Request)
    (huses : ∀ e, r.Uses e → store.Has e) : Paced r.run r.run store store Copied := by
  have hself : ∀ e, r.Uses e → store.Copies store e e := fun e he =>
    .of_has h.left.toFounded (huses e he)
  have hone : store.Copies store .one .one := .terminal rfl
  cases r with
  | negation f => exact lockstep_pure h (hself f rfl).neg
  | literal v => exact paced_literal h v
  | branch v low high => exact paced_branch h (hself low (.inl rfl)) (hself high (.inr rfl))
  | cube literals => exact paced_cube h literals
  | ite f g k =>
    exact paced_ite h (hself f (.inl rfl)) (hself g (.inr (.inl rfl))) (hself k (.inr (.inr rfl)))
  | conj f g => exact paced_conj h (hself f (.inl rfl)) (hself g (.inr rfl))
  | disj f g => exact paced_disj h (hself f (.inl rfl)) (hself g (.inr rfl))
  | differ f g =>
    exact paced_ite h (hself f (.inl rfl)) (hself g (.inr rfl)).neg (hself g (.inr rfl))
  | agree f g =>
    exact paced_ite h (hself f (.inl rfl)) (hself g (.inr rfl)) (hself g (.inr rfl)).neg
  | imply f g => exact paced_imply h (hself f (.inl rfl)) (hself g (.inr rfl))
  | entails f g =>
    have hentails : Paced (Diagram.entails f g) (Diagram.entails f g) store store
        fun answer answer' _ _ => answer = answer' :=
      (paced_imply h (hself f (.inl rfl)) (hself g (.inr rfl))).bind fun e e' _ _ h' _ _ he =>
        lockstep_pure h' (decide_eq_decide.2
          (he.eq_one_iff h'.left.toFounded h'.right.toFounded)).symm
    refine hentails.bind fun answer _ _ _ h' _ _ heq => lockstep_pure h' ?_
    obtain rfl := heq
    cases answer <;> exact .terminal rfl
  | conjAll edges => exact paced_conjAll h (copiesEach_of_has h.left.toFounded huses)
  | disjAll edges => exact paced_disjAll h (copiesEach_of_has h.left.toFounded huses)
  | restrict f v value => exact paced_restrict h (hself f rfl) v value
  | compose f v g => exact paced_compose h (hself f (.inl rfl)) (hself g (.inr rfl)) v
  | substitute f images =>
    exact paced_substitute h (copiesMap_of_has h.left.toFounded fun v e hv =>
      huses e (.inr ⟨v, hv⟩)) (hself f (.inl rfl))
  | someOn f vars => exact paced_quantifyExists h (hself f rfl) vars
  | allOn f vars => exact paced_quantifyForall h (hself f rfl) vars

namespace Manager

variable {m n : Manager}

theorem paced_product (h : m.Paired m) {automata : List Automaton}
    (hautomata : ∀ automaton ∈ automata, automaton.Belongs m.store) :
    Paced (Automaton.product automata) (Automaton.product automata) m m fun _ _ _ _ => True := by
  have hfounded := h.store.left.toFounded
  have hnext : CopiesEach m.store m.store (automata.flatMap (·.next)) (automata.flatMap (·.next)) :=
    copiesEach_of_has hfounded fun e he => by
      obtain ⟨automaton, hmem, he⟩ := List.mem_flatMap.1 he
      exact (hautomata automaton hmem).next e he
  have hfinals : CopiesEach m.store m.store (automata.map (·.finals)) (automata.map (·.finals)) :=
    copiesEach_of_has hfounded fun e he => by
      obtain ⟨automaton, hmem, rfl⟩ := List.mem_map.1 he
      exact (hautomata automaton hmem).finals
  unfold Automaton.product
  dsimp only
  split
  · exact (lockstep_throw _ h).bind fun _ _ _ _ _ _ _ hfalse => False.elim hfalse
  refine (paced_newProductBlock h _).bind fun id _ m₁ n₁ h₁ hle₁ hle₁' heq => ?_
  obtain rfl := heq
  refine paced_note_bind h₁ _ _ _ fun m₂ n₂ h₂ hle₂ hle₂' => ?_
  have hle := hle₁.1.trans hle₂.1
  have hle' := hle₁'.1.trans hle₂'.1
  apply (paced_lift h₂ (paced_conjAll h₂.store (hfinals.mono hle hle'))).bind
  intro finals finals' m₃ n₃ h₃ hle₃ hle₃' hfinals
  apply (Automaton.paced_create h₃ id _ ((hnext.mono hle hle').mono hle₃.1 hle₃'.1) hfinals).bind
  intro _ _ _ _ h₄ _ _ _
  exact lockstep_pure h₄ trivial

/-- An operation on a manager with its operands. -/
inductive Call
  | newStateVars (count : Nat)
  | newNamedStateVars (names : List String)
  | newProductBlock (ids : List BlockId)
  | claimVars (role : Role) (names : List String)
  | diagram (request : Request)
  | stateBit (id : BlockId) (place : Nat)
  | named (name : String)
  | stateCube (id : BlockId) (state : List Bool)
  | automaton (id : BlockId) (initial : List Bool) (next : List Edge) (finals : Edge)
  | product (automata : List Automaton)
  | compose (first second : Automaton) (shared : List String)
  | symbolic (dfa : Dfa)
  | compile (domain : Domain) (mode : AgentErrorMode)
  | solveGame (game : Game) (attitude : Attitude) (goal space : Edge)
  | solve (encoding : Encoding) (algorithm : Algorithm) (maxIterations : Option Nat)
  | solveTemporal (encoding : Encoding) (goal : Dfa) (maxIterations : Option Nat)

namespace Call

/-- Run the operation for what it does to the manager. -/
def run : Call → ManagerM Unit
  | .newStateVars count => do let _ ← Manager.newStateVars count
  | .newNamedStateVars names => do let _ ← Manager.newNamedStateVars names
  | .newProductBlock ids => do let _ ← Manager.newProductBlock ids
  | .claimVars role names => do let _ ← Manager.claimVars role names
  | .diagram request => do let _ ← request.run
  | .stateBit id place => do let _ ← Manager.stateBit id place
  | .named name => do let _ ← Manager.named? name
  | .stateCube id state => do let _ ← Manager.stateCube id state
  | .automaton id initial next finals => do let _ ← Automaton.create id initial next finals
  | .product automata => do let _ ← Automaton.product automata
  | .compose first second shared => do let _ ← first.compose second shared
  | .symbolic dfa => do let _ ← dfa.symbolic
  | .compile domain mode => do let _ ← Encoding.ofDomain domain mode
  | .solveGame game attitude goal space => do let _ ← game.solve attitude goal space
  | .solve encoding algorithm maxIterations => do let _ ← encoding.solve algorithm maxIterations
  | .solveTemporal encoding goal maxIterations => do
    let _ ← encoding.solveTemporal goal maxIterations

/-- The diagrams that the operation is applied to lie in the store. -/
def Belongs (store : Store) : Call → Prop
  | .diagram request => ∀ e, request.Uses e → store.Has e
  | .automaton _ _ next finals => (∀ e ∈ next, store.Has e) ∧ store.Has finals
  | .product automata => ∀ automaton ∈ automata, automaton.Belongs store
  | .compose first second _ => first.Belongs store ∧ second.Belongs store
  | .solveGame game _ goal space =>
    game.arena.Belongs store ∧ store.Has game.constraint ∧ store.Has goal ∧ store.Has space
  | .solve encoding _ _ | .solveTemporal encoding _ _ => encoding.Belongs store
  | .newStateVars _ | .newNamedStateVars _ | .newProductBlock _ | .claimVars _ _ | .stateBit _ _
  | .named _ | .stateCube _ _ | .symbolic _ | .compile _ _ => True

/-- Run twice in one manager, the operation ends alike. -/
theorem paced_run (h : m.Paired m) (call : Call) (hcall : call.Belongs m.store) :
    Paced call.run call.run m m fun _ _ _ _ => True := by
  have hfounded := h.store.left.toFounded
  have hdone : ∀ {α : Type} {op : ManagerM α} {post : α → α → Store → Store → Prop},
      Paced op op m m post → Paced (op >>= fun _ => pure ()) (op >>= fun _ => pure ()) m m
        fun _ _ _ _ => True := fun hop =>
    hop.bind fun _ _ _ _ h' _ _ _ => lockstep_pure h' trivial
  cases call with
  | newStateVars count => exact hdone (paced_newStateVars h count)
  | newNamedStateVars names => exact hdone (paced_newNamedStateVars h names)
  | newProductBlock ids => exact hdone (paced_newProductBlock h ids)
  | claimVars role names => exact hdone (paced_claimVars h role names)
  | diagram request => exact hdone (paced_lift h (request.paced_run h.store hcall))
  | stateBit id place => exact hdone (paced_stateBit h id place)
  | named name => exact hdone (paced_named? h name)
  | stateCube id state => exact hdone (paced_stateCube h id state)
  | automaton id initial next finals =>
    exact hdone (Automaton.paced_create h id initial (copiesEach_of_has hfounded hcall.1)
      (.of_has hfounded hcall.2))
  | product automata => exact hdone (paced_product h hcall)
  | compose first second shared =>
    exact hdone (Automaton.paced_compose h (hcall.1.copies hfounded) (hcall.2.copies hfounded)
      shared)
  | symbolic dfa => exact hdone (Dfa.paced_symbolic h dfa)
  | compile domain mode => exact hdone (Encoding.paced_ofDomain h domain mode)
  | solveGame game attitude goal space =>
    obtain ⟨harena, hconstraint, hgoal, hspace⟩ := hcall
    have hgame : Game.Copies m.store m.store game game :=
      ⟨harena.copies hfounded, rfl, rfl, .of_has hfounded hconstraint, rfl⟩
    exact hdone (paced_lift h (Game.paced_solve hgame h.store attitude (.of_has hfounded hgoal)
      (.of_has hfounded hspace)))
  | solve encoding algorithm maxIterations =>
    exact hdone (Encoding.paced_solve h (hcall.copies hfounded) algorithm maxIterations)
  | solveTemporal encoding goal maxIterations =>
    exact hdone (Encoding.paced_solveTemporal h (hcall.copies hfounded) goal maxIterations)

end Call

/-- The second manager is reached from the first by calls, successful or not, none of which uses up
all positions of the store. -/
inductive Leads : Manager → Manager → Prop
  | refl (m : Manager) : Leads m m
  | step {m n : Manager} {call : Call} (h : Leads m n) (hcall : call.Belongs n.store)
      (hroom : (call.run.run.run n).1 ≠ .error .full) : Leads m (call.run.run.run n).2

theorem leads_of_run {call : Call} (hcall : call.Belongs m.store)
    (hrun : call.run.run.run m = (.ok (), n)) : m.Leads n := by
  have hstep := Leads.step (.refl m) hcall (by simp [hrun])
  rwa [hrun] at hstep

/-- A reached manager has all that the first one had, and room for more. -/
theorem Leads.keeps (h : m.Leads n) (hm : m.Paired m) : n.Paired n ∧ m ≤ n := by
  induction h with
  | refl => exact ⟨hm, le_rfl⟩
  | @step n call _ hcall hroom ih =>
    obtain ⟨hn, hle⟩ := ih
    obtain ⟨hpaired, hle'⟩ := (call.paced_run hn hcall).keeps hroom
    exact ⟨hpaired, hle.trans hle'⟩

/-- A new manager has no variables, and room for diagrams. -/
theorem paired_of_create {sizes : TableSizes} {journal : Journal}
    (h : create sizes journal = .ok m) : m.Paired m ∧ m.store.Sound ∧ m.registry = {} := by
  obtain ⟨store, hstore, rfl⟩ := exists_of_create h
  have hvalues := (Store.of_create hstore).1
  have hroom : HasRoom store := by
    rw [HasRoom, Store.nodeCount, UniqueTable.size, hvalues]
    decide
  exact ⟨paired_self (Store.replayable_of_create hstore) hroom, Store.sound_of_create hstore, rfl⟩

end Manager

end PlanningGame
