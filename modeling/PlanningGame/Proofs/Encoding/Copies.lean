import Mathlib
import PlanningGame.Proofs.Encoding.Lockstep

/-!
# Solving copies of an encoding

What is solved for copies of an encoding, in two managers with one registry, is solved alike: the
games have the same outcome after as many iterations, states lie in the same regions, and strategies
choose the same. This holds for each procedure, and for automata over fluents as goals.
-/
namespace PlanningGame

open Diagram

variable {s t s' t' : Store} {m n : Manager}

/-- The results of both games are copies. -/
structure BestEffort.Copies (s t : Store) (result result' : BestEffort) : Prop where
  arena : Automaton.Copies s t result.arena result'.arena
  adversarial : Solution.Copies s t result.adversarial result'.adversarial
  cooperative : Option.Rel (Solution.Copies s t) result.cooperative result'.cooperative

/-- The outcomes are of the same procedure, and copies. -/
inductive Encoding.Outcome.Copies (s t : Store) : Outcome → Outcome → Prop
  | adversarial {solution solution' : Solution} :
      Solution.Copies s t solution solution' →
      Encoding.Outcome.Copies s t (.adversarial solution) (.adversarial solution')
  | cooperative {solution solution' : Solution} :
      Solution.Copies s t solution solution' →
      Encoding.Outcome.Copies s t (.cooperative solution) (.cooperative solution')
  | bestEffort {result result' : BestEffort} :
      BestEffort.Copies s t result result' →
      Encoding.Outcome.Copies s t (.bestEffort result) (.bestEffort result')

/-- A state lies in the same region of copies. -/
theorem BestEffort.Copies.region_eq {result result' : BestEffort}
    (h : BestEffort.Copies s t result result') (hpaired : s.Paired t) (state : List Bool) :
    result'.region t state = result.region s state := by
  have hcooperative := h.cooperative
  unfold BestEffort.region
  rw [h.arena.satisfies_eq hpaired h.adversarial.winningStates]
  generalize result.cooperative = other at hcooperative ⊢
  generalize result'.cooperative = other' at hcooperative ⊢
  cases hcooperative with
  | none => rfl
  | some hsolution =>
    dsimp only
    rw [h.arena.satisfies_eq hpaired hsolution.winningStates]

/-- What holds of the strategy for a state holds of its copy. -/
theorem BestEffort.Copies.exists_strategy_iff {result result' : BestEffort}
    (h : BestEffort.Copies s t result result') (hpaired : s.Paired t) (state : List Bool)
    {P P' : Strategy → Prop} (hP : ∀ strategy strategy',
      Strategy.Copies s t strategy strategy' → (P' strategy' ↔ P strategy)) :
    (∃ strategy, result'.strategy? t state = some strategy ∧ P' strategy) ↔
      ∃ strategy, result.strategy? s state = some strategy ∧ P strategy := by
  have hcooperative := h.cooperative
  unfold BestEffort.strategy?
  rw [h.region_eq hpaired]
  generalize result.cooperative = other at hcooperative ⊢
  generalize result'.cooperative = other' at hcooperative ⊢
  cases result.region s state with
  | winning => simpa using hP _ _ h.adversarial.strategy
  | cooperative =>
    cases hcooperative with
    | none => simp
    | some hsolution => simpa using hP _ _ hsolution.strategy
  | losing => simp

namespace Automaton

open Manager (paced_lift paced_note_bind paced_block)

variable {first first' second second' : Automaton}

/-- The fluents are read through the same variables and have copies of the same next values. -/
structure SharedFluent.Copies (s t : Store) (fluent fluent' : SharedFluent) : Prop where
  letter_eq : fluent'.letter = fluent.letter
  next : s.Copies t fluent.next fluent'.next
  initial_eq : fluent'.initial = fluent.initial

theorem SharedFluent.Copies.mono {fluent fluent' : SharedFluent}
    (h : SharedFluent.Copies s t fluent fluent') (hle : s ≤ s') (hle' : t ≤ t') :
    SharedFluent.Copies s' t' fluent fluent' :=
  ⟨h.letter_eq, h.next.mono hle hle', h.initial_eq⟩

theorem paced_sharedFluent (h : m.Paired n)
    (hfirst : Automaton.Copies m.store n.store first first') (name : String) :
    Manager.Paced (first.sharedFluent name) (first'.sharedFluent name) m n
      fun fluent fluent' s t => SharedFluent.Copies s t fluent fluent' := by
  unfold sharedFluent
  rw [hfirst.block_eq]
  refine (paced_block h first.block).bind fun block _ m₁ n₁ h₁ hle₁ hle₁' heq => ?_
  obtain rfl := heq
  cases block.place? name with
  | none => exact lockstep_throw _ h₁
  | some place =>
    refine (Manager.paced_named? h₁ name).bind fun edge edge' m₂ n₂ h₂ hle₂ hle₂' hedge => ?_
    cases hedge with
    | none => exact lockstep_throw _ h₂
    | @some edge edge' hedge =>
      have hvar : (n₂.store.node edge'.index).var = (m₂.store.node edge.index).var :=
        hedge.node_var_eq h₂.store.left.toFounded h₂.store.right.toFounded
      refine Manager.paced_diagrams_bind ?_
      dsimp only
      rw [hvar, hfirst.initial_eq]
      refine paced_note_bind h₂ _ _ _ fun m₃ n₃ h₃ hle₃ hle₃' => ?_
      have hle := hle₁.1.trans (hle₂.1.trans hle₃.1)
      have hle' := hle₁'.1.trans (hle₂'.1.trans hle₃'.1)
      have hnext := hfirst.next.getElem? place
      generalize first.next[place]? = next at hnext ⊢
      generalize first'.next[place]? = next' at hnext ⊢
      cases hnext with
      | none => exact lockstep_throw _ h₃
      | some hnext =>
        cases first.initial[place]? with
        | none => exact lockstep_throw _ h₃
        | some initial => exact lockstep_pure h₃ ⟨rfl, hnext.mono hle hle', rfl⟩

theorem paced_rewire (h : m.Paired n) {images images' : Substitution}
    (himages : CopiesMap m.store n.store images images') {e e' : Edge}
    (he : m.store.Copies n.store e e') :
    Manager.Paced (rewire images e) (rewire images' e') m n Copied := by
  unfold rewire
  apply (paced_lift h (paced_substitute h.store himages he)).bind
  intro wired wired' m₁ n₁ h₁ _ _ hwired
  refine Manager.paced_get_bind ?_
  have hsupport : n₁.alphabetSupport wired' = m₁.alphabetSupport wired := by
    unfold Manager.alphabetSupport
    rw [hwired.support_eq h₁.store.left.toFounded h₁.store.right.toFounded, h₁.registry_eq]
  rw [hsupport]
  cases (m₁.alphabetSupport wired).head? with
  | none => exact lockstep_pure h₁ hwired
  | some v =>
    dsimp only
    unfold Manager.displayName
    rw [h₁.registry_eq]
    exact lockstep_throw _ h₁

theorem paced_compose (h : m.Paired n) (hfirst : Automaton.Copies m.store n.store first first')
    (hsecond : Automaton.Copies m.store n.store second second') (shared : List String) :
    Manager.Paced (first.compose second shared) (first'.compose second' shared) m n
      fun automaton automaton' s t => Automaton.Copies s t automaton automaton' := by
  have hfluents : Manager.Paced (shared.mapM first.sharedFluent) (shared.mapM first'.sharedFluent)
      m n fun fluents fluents' s t =>
        List.Forall₂ (SharedFluent.Copies s t) fluents fluents' :=
    lockstep_mapM_self h
      (fun _ _ _ _ _ _ hc hle hle' => SharedFluent.Copies.mono hc hle.1 hle'.1)
      fun name _ _ h' hle hle' => paced_sharedFluent h' (hfirst.mono hle.1 hle'.1) name
  unfold compose
  apply hfluents.bind
  intro fluents fluents' m₁ n₁ h₁ hle₁ hle₁' hfluents
  have hletters : fluents'.map (·.letter) = fluents.map (·.letter) :=
    map_eq_of_forall₂ hfluents fun _ _ hf => SharedFluent.Copies.letter_eq hf
  have hinitials : fluents'.map (·.initial) = fluents.map (·.initial) :=
    map_eq_of_forall₂ hfluents fun _ _ hf => SharedFluent.Copies.initial_eq hf
  have himages : CopiesMap m₁.store n₁.store
      (Std.TreeMap.ofList (fluents.map fun fluent => (fluent.letter, fluent.next)) : Substitution)
      (Std.TreeMap.ofList (fluents'.map fun fluent => (fluent.letter, fluent.next))) := by
    refine copiesMap_ofList ?_
    rw [List.forall₂_map_left_iff, List.forall₂_map_right_iff]
    exact hfluents.imp fun _ _ hf => ⟨hf.letter_eq, hf.next⟩
  dsimp only
  rw [hfirst.block_eq, hsecond.block_eq, hletters, hinitials]
  refine (Manager.paced_newProductBlock h₁ _).bind fun id _ m₂ n₂ h₂ hle₂ hle₂' heq => ?_
  obtain rfl := heq
  refine Manager.paced_diagrams_bind ?_
  have hle := hle₁.1.trans hle₂.1
  have hle' := hle₁'.1.trans hle₂'.1
  rw [(hsecond.mono hle hle').step_eq h₂.store, hsecond.initial_eq, hfirst.valuation_eq,
    hfirst.initial_eq]
  refine (Manager.paced_ofExcept h₂ _).bind fun moved _ m₃ n₃ h₃ hle₃ hle₃' heq => ?_
  obtain rfl := heq
  have hle := hle.trans hle₃.1
  have hle' := hle'.trans hle₃'.1
  have hwired : Manager.Paced (second.next.mapM (rewire _)) (second'.next.mapM (rewire _)) m₃ n₃
      fun edges edges' s t => CopiesEach s t edges edges' :=
    lockstep_mapM h₃ (fun _ _ _ _ _ _ hc hle hle' => Store.Copies.mono hc hle.1 hle'.1)
      (hsecond.next.mono hle hle') fun e e' _ _ he h' hle hle' =>
        paced_rewire h' (himages.mono ((hle₂.1.trans hle₃.1).trans hle.1)
          ((hle₂'.1.trans hle₃'.1).trans hle'.1)) (he.mono hle.1 hle'.1)
  apply hwired.bind
  intro wired wired' m₄ n₄ h₄ hle₄ hle₄' hwired
  refine paced_note_bind h₄ _ _ _ fun m₅ n₅ h₅ hle₅ hle₅' => ?_
  have hle := hle.trans (hle₄.1.trans hle₅.1)
  have hle' := hle'.trans (hle₄'.1.trans hle₅'.1)
  have hnext : CopiesEach m₅.store n₅.store (first.next ++ wired) (first'.next ++ wired') :=
    List.rel_append (hfirst.next.mono hle hle') (hwired.mono hle₅.1 hle₅'.1)
  apply (paced_create h₅ id _ hnext (.terminal rfl)).bind
  intro composed composed' m₆ n₆ h₆ _ _ hcomposed
  rw [hfirst.inputs_eq, hfirst.outputs_eq, hsecond.inputs_eq, hsecond.outputs_eq]
  exact lockstep_pure h₆ ⟨hcomposed.1, hcomposed.2, hcomposed.3, rfl, rfl, hcomposed.next,
    hcomposed.finals⟩

end Automaton

namespace Dfa

open Manager (paced_lift paced_note_bind)

variable {next next' : List Edge} {e e' : Edge}

theorem paced_addEdge (h : s.Paired t) (he : s.Copies t e e') (code : List Bool)
    (hnext : CopiesEach s t next next') :
    Paced (addEdge e code next) (addEdge e' code next') s t
      fun next next' s t => CopiesEach s t next next' := by
  induction code generalizing s t next next' with
  | nil => exact lockstep_pure h hnext
  | cons bit bits ih =>
    cases hnext with
    | nil => exact lockstep_pure h .nil
    | @cons f f' rest rest' hf hrest =>
      have htail : ∀ g g' s₁ t₁, s₁.Paired t₁ → s ≤ s₁ → t ≤ t₁ → s₁.Copies t₁ g g' →
          Paced (addEdge e bits rest >>= fun others => pure (g :: others))
            (addEdge e' bits rest' >>= fun others => pure (g' :: others)) s₁ t₁
            fun next next' s t => CopiesEach s t next next' := by
        intro g g' s₁ t₁ h₁ hle₁ hle₁' hg
        apply (ih h₁ (he.mono hle₁ hle₁') (CopiesEach.mono hrest hle₁ hle₁')).bind
        intro others others' s₂ t₂ h₂ hle₂ hle₂' hothers
        exact lockstep_pure h₂ (.cons (hg.mono hle₂ hle₂') hothers)
      rw [addEdge, addEdge]
      split
      · exact (paced_disj h hf he).bind htail
      · exact htail f f' s t h le_rfl le_rfl hf

theorem paced_addRow (h : s.Paired t) (letterVars : List Var) (width : Nat)
    (he : s.Copies t e e') (letter : Nat) (successors : List Nat)
    (hnext : CopiesEach s t next next') :
    Paced (addRow letterVars width e letter successors next)
      (addRow letterVars width e' letter successors next') s t
      fun next next' s t => CopiesEach s t next next' := by
  induction successors generalizing s t letter next next' with
  | nil => exact lockstep_pure h hnext
  | cons successor rest ih =>
    rw [addRow, addRow]
    dsimp only
    split
    · apply (paced_assignmentCube h _ _).bind
      intro cube cube' s₁ t₁ h₁ hle₁ hle₁' hcube
      apply (paced_conj h₁ (he.mono hle₁ hle₁') hcube).bind
      intro both both' s₂ t₂ h₂ hle₂ hle₂' hboth
      have hle := hle₁.trans hle₂
      have hle' := hle₁'.trans hle₂'
      apply (paced_addEdge h₂ hboth _ (hnext.mono hle hle')).bind
      intro next next' s₃ t₃ h₃ hle₃ hle₃' hnext
      exact ih h₃ ((he.mono hle hle').mono hle₃ hle₃') _ hnext
    · exact ih h he _ hnext

theorem paced_stateCube (h : m.Paired n) (id : BlockId) (width state : Nat) :
    Manager.Paced (stateCube id width state) (stateCube id width state) m n Copied :=
  Manager.paced_stateCube h id _

theorem paced_addRows (h : m.Paired n) (id : BlockId) (letterVars : List Var) (width state : Nat)
    (rows : List (List Nat)) (hnext : CopiesEach m.store n.store next next') :
    Manager.Paced (addRows id letterVars width state rows next)
      (addRows id letterVars width state rows next') m n
      fun next next' s t => CopiesEach s t next next' := by
  induction rows generalizing m n state next next' with
  | nil => exact lockstep_pure h hnext
  | cons row rest ih =>
    rw [addRows, addRows]
    apply (paced_stateCube h id width state).bind
    intro source source' m₁ n₁ h₁ hle₁ hle₁' hsource
    apply (paced_lift h₁ (paced_addRow h₁.store letterVars width hsource 0 row
      (hnext.mono hle₁.1 hle₁'.1))).bind
    intro next next' m₂ n₂ h₂ _ _ hnext
    exact ih h₂ _ hnext

theorem paced_symbolic (h : m.Paired n) (dfa : Dfa) :
    Manager.Paced dfa.symbolic dfa.symbolic m n
      fun automaton automaton' s t => Automaton.Copies s t automaton automaton' := by
  unfold symbolic
  dsimp only
  refine (Manager.paced_newStateVars h _).bind fun id _ m₁ n₁ h₁ _ _ heq => ?_
  obtain rfl := heq
  refine (Manager.paced_claimVars h₁ _ _).bind fun letterVars _ m₂ n₂ h₂ _ _ heq => ?_
  obtain rfl := heq
  have hzero : CopiesEach m₂.store n₂.store
      (List.replicate (Binary.width (dfa.size - 1)) .zero)
      (List.replicate (Binary.width (dfa.size - 1)) .zero) :=
    List.forall₂_same.2 fun e he => List.eq_of_mem_replicate he ▸ .terminal rfl
  apply (paced_addRows h₂ id letterVars _ 0 dfa.successors hzero).bind
  intro next next' m₃ n₃ h₃ hle₃ hle₃' hnext
  have hcubes : Manager.Paced
      (dfa.accepting.toList.mapM (stateCube id (Binary.width (dfa.size - 1))))
      (dfa.accepting.toList.mapM (stateCube id (Binary.width (dfa.size - 1)))) m₃ n₃
      fun edges edges' s t => CopiesEach s t edges edges' :=
    lockstep_mapM_self h₃ (fun _ _ _ _ _ _ hc hle hle' => Store.Copies.mono hc hle.1 hle'.1)
      fun state _ _ h' _ _ => paced_stateCube h' id _ state
  apply hcubes.bind
  intro cubes cubes' m₄ n₄ h₄ hle₄ hle₄' hcubes
  apply (paced_lift h₄ (paced_disjAll h₄.store hcubes)).bind
  intro finals finals' m₅ n₅ h₅ hle₅ hle₅' hfinals
  refine paced_note_bind h₅ _ _ _ fun m₆ n₆ h₆ hle₆ hle₆' => ?_
  have hle := hle₄.1.trans (hle₅.1.trans hle₆.1)
  have hle' := hle₄'.1.trans (hle₅'.1.trans hle₆'.1)
  exact Automaton.paced_create h₆ id _ (hnext.mono hle hle') (hfinals.mono hle₆.1 hle₆'.1)

end Dfa

namespace Encoding

open Manager (paced_lift paced_note_bind paced_stateBit)

variable {encoding encoding' : Encoding} {e e' f f' : Edge} {maxIterations : Option Nat}

theorem Copies.mono (h : Encoding.Copies s t encoding encoding') (hle : s ≤ s') (hle' : t ≤ t') :
    Encoding.Copies s' t' encoding encoding' :=
  { h with
    automaton := h.automaton.mono hle hle'
    invariant := h.invariant.mono hle hle'
    agentMutex := h.agentMutex.mono hle hle'
    envMutex := h.envMutex.mono hle hle'
    agentPrecondition := h.agentPrecondition.mono hle hle'
    envPrecondition := h.envPrecondition.mono hle hle'
    predicates := h.predicates.imp fun _ _ hp => ⟨hp.1, hp.2.mono hle hle'⟩ }

theorem paced_stateSpace (h : s.Paired t) (henc : Encoding.Copies s t encoding encoding') :
    Paced encoding.stateSpace encoding'.stateSpace s t Copied :=
  paced_conjAll h (.cons henc.invariant (.cons henc.agentMutex (.cons henc.agentPrecondition .nil)))

section Goals

variable (h : m.Paired n) (henc : Encoding.Copies m.store n.store encoding encoding')
include h henc

theorem paced_envError : Manager.Paced encoding.envError encoding'.envError m n Copied := by
  unfold envError envErrorBit
  rw [henc.automaton.block_eq, henc.domain_eq]
  exact paced_stateBit h _ _

theorem paced_agentError : Manager.Paced encoding.agentError encoding'.agentError m n Copied := by
  unfold agentError agentErrorBit?
  rw [henc.automaton.block_eq, henc.domain_eq, henc.mode_eq]
  cases encoding.mode with
  | invariant => exact lockstep_pure h (.terminal rfl)
  | errorBit => exact paced_stateBit h _ _

variable (he : m.store.Copies n.store e e') (hf : m.store.Copies n.store f f')
include he hf

theorem paced_adversarialGoal :
    Manager.Paced (encoding.adversarialGoal e f) (encoding'.adversarialGoal e' f') m n Copied := by
  unfold adversarialGoal
  apply (paced_agentError h henc).bind
  intro agentError agentError' m₁ n₁ h₁ hle₁ hle₁' hagent
  apply (paced_envError h₁ (henc.mono hle₁.1 hle₁'.1)).bind
  intro envError envError' m₂ n₂ h₂ hle₂ hle₂' henv
  have hle := hle₁.1.trans hle₂.1
  have hle' := hle₁'.1.trans hle₂'.1
  apply (paced_lift h₂ (paced_disj h₂.store henv (he.mono hle hle'))).bind
  intro reached reached' m₃ n₃ h₃ hle₃ hle₃' hreached
  have hagent₃ := hagent.mono (hle₂.1.trans hle₃.1) (hle₂'.1.trans hle₃'.1)
  have hspace₃ := hf.mono (hle.trans hle₃.1) (hle'.trans hle₃'.1)
  exact paced_lift h₃
    (paced_conjAll h₃.store (.cons hagent₃.neg (.cons hreached (.cons hspace₃ .nil))))

theorem paced_cooperativeGoal :
    Manager.Paced (encoding.cooperativeGoal e f) (encoding'.cooperativeGoal e' f') m n Copied := by
  unfold cooperativeGoal
  apply (paced_agentError h henc).bind
  intro agentError agentError' m₁ n₁ h₁ hle₁ hle₁' hagent
  apply (paced_envError h₁ (henc.mono hle₁.1 hle₁'.1)).bind
  intro envError envError' m₂ n₂ h₂ hle₂ hle₂' henv
  have hle := hle₁.1.trans hle₂.1
  have hle' := hle₁'.1.trans hle₂'.1
  exact paced_lift h₂ (paced_conjAll h₂.store (.cons (hagent.mono hle₂.1 hle₂'.1).neg
    (.cons henv.neg (.cons (he.mono hle hle') (.cons (hf.mono hle hle') .nil)))))

end Goals

section Solving

variable (h : m.Paired n) (henc : Encoding.Copies m.store n.store encoding encoding')
include h henc

theorem paced_solveAdversarial (maxIterations : Option Nat) :
    Manager.Paced (encoding.solveAdversarial maxIterations)
      (encoding'.solveAdversarial maxIterations) m n
      fun solution solution' s t => Solution.Copies s t solution solution' := by
  unfold solveAdversarial
  dsimp only
  apply (paced_lift h (paced_stateSpace h.store henc)).bind
  intro space space' m₁ n₁ h₁ hle₁ hle₁' hspace
  have henc := henc.mono hle₁.1 hle₁'.1
  apply (paced_adversarialGoal h₁ henc henc.automaton.finals hspace).bind
  intro goal goal' m₂ n₂ h₂ hle₂ hle₂' hgoal
  have hgame := copies_agentGame (henc.automaton.mono hle₂.1 hle₂'.1) maxIterations
  exact paced_lift h₂ (Game.paced_solve hgame h₂.store _ hgoal (hspace.mono hle₂.1 hle₂'.1))

theorem paced_solveCooperative (maxIterations : Option Nat) :
    Manager.Paced (encoding.solveCooperative maxIterations)
      (encoding'.solveCooperative maxIterations) m n
      fun solution solution' s t => Solution.Copies s t solution solution' := by
  unfold solveCooperative
  dsimp only
  apply (paced_lift h (paced_stateSpace h.store henc)).bind
  intro space space' m₁ n₁ h₁ hle₁ hle₁' hspace
  have henc := henc.mono hle₁.1 hle₁'.1
  apply (paced_cooperativeGoal h₁ henc henc.automaton.finals hspace).bind
  intro goal goal' m₂ n₂ h₂ hle₂ hle₂' hgoal
  have hgame := copies_agentGame (henc.automaton.mono hle₂.1 hle₂'.1) maxIterations
  exact paced_lift h₂ (Game.paced_solve hgame h₂.store _ hgoal (hspace.mono hle₂.1 hle₂'.1))

theorem paced_solveBestEffort (maxIterations : Option Nat) :
    Manager.Paced (encoding.solveBestEffort maxIterations)
      (encoding'.solveBestEffort maxIterations) m n
      fun result result' s t => BestEffort.Copies s t result result' := by
  unfold solveBestEffort
  dsimp only
  apply (paced_lift h (paced_stateSpace h.store henc)).bind
  intro space space' m₁ n₁ h₁ hle₁ hle₁' hspace
  have henc := henc.mono hle₁.1 hle₁'.1
  apply (paced_solveAdversarial h₁ henc maxIterations).bind
  intro solution solution' m₂ n₂ h₂ hle₂ hle₂' hsolution
  have henc := henc.mono hle₂.1 hle₂'.1
  rw [hsolution.realizable_eq]
  split
  · refine paced_note_bind h₂ _ _ _ fun m₃ n₃ h₃ hle₃ hle₃' => ?_
    exact lockstep_pure h₃
      ⟨henc.automaton.mono hle₃.1 hle₃'.1, hsolution.mono hle₃.1 hle₃'.1, .none⟩
  · refine paced_note_bind h₂ _ _ _ fun m₃ n₃ h₃ hle₃ hle₃' => ?_
    have henc := henc.mono hle₃.1 hle₃'.1
    have hsolution := hsolution.mono hle₃.1 hle₃'.1
    have hspace := (hspace.mono hle₂.1 hle₂'.1).mono hle₃.1 hle₃'.1
    apply (paced_cooperativeGoal h₃ henc hsolution.winningStates hspace).bind
    intro goal goal' m₄ n₄ h₄ hle₄ hle₄' hgoal
    have hgame := copies_agentGame (henc.automaton.mono hle₄.1 hle₄'.1) maxIterations
    apply (paced_lift h₄ (Game.paced_solve hgame h₄.store _ hgoal
      (hspace.mono hle₄.1 hle₄'.1))).bind
    intro other other' m₅ n₅ h₅ hle₅ hle₅' hother
    refine paced_note_bind h₅ _ _ _ fun m₆ n₆ h₆ hle₆ hle₆' => ?_
    have hle := hle₄.1.trans (hle₅.1.trans hle₆.1)
    have hle' := hle₄'.1.trans (hle₅'.1.trans hle₆'.1)
    exact lockstep_pure h₆ ⟨henc.automaton.mono hle hle', hsolution.mono hle hle',
      .some (hother.mono hle₆.1 hle₆'.1)⟩

theorem paced_solveTemporal (dfa : Dfa) (maxIterations : Option Nat) :
    Manager.Paced (encoding.solveTemporal dfa maxIterations)
      (encoding'.solveTemporal dfa maxIterations) m n
      fun result result' s t => BestEffort.Copies s t result result' := by
  unfold solveTemporal
  dsimp only
  apply (Dfa.paced_symbolic h dfa).bind
  intro monitor monitor' m₁ n₁ h₁ hle₁ hle₁' hmonitor
  have henc := henc.mono hle₁.1 hle₁'.1
  apply (Automaton.paced_compose h₁ henc.automaton hmonitor _).bind
  intro arena arena' m₂ n₂ h₂ hle₂ hle₂' harena
  have henc := henc.mono hle₂.1 hle₂'.1
  have hmonitor := hmonitor.mono hle₂.1 hle₂'.1
  apply (paced_lift h₂ (paced_stateSpace h₂.store henc)).bind
  intro space space' m₃ n₃ h₃ hle₃ hle₃' hspace
  have henc := henc.mono hle₃.1 hle₃'.1
  have hfinals := hmonitor.finals.mono hle₃.1 hle₃'.1
  apply (paced_adversarialGoal h₃ henc hfinals hspace).bind
  intro goal goal' m₄ n₄ h₄ hle₄ hle₄' hgoal
  have henc := henc.mono hle₄.1 hle₄'.1
  have harena := (harena.mono hle₃.1 hle₃'.1).mono hle₄.1 hle₄'.1
  have hspace := hspace.mono hle₄.1 hle₄'.1
  have hfinals := hfinals.mono hle₄.1 hle₄'.1
  apply (paced_lift h₄ (Game.paced_solve (copies_agentGame harena maxIterations) h₄.store _ hgoal
    hspace)).bind
  intro solution solution' m₅ n₅ h₅ hle₅ hle₅' hsolution
  have harena := harena.mono hle₅.1 hle₅'.1
  have hlast : ∀ {other other' : Option Solution} (message message' : Unit → String) m' n',
      m'.Paired n' → m₅ ≤ m' → n₅ ≤ n' →
      Option.Rel (Solution.Copies m'.store n'.store) other other' →
      Manager.Paced
        (Manager.note .info message >>= fun _ => pure (⟨arena, solution, other⟩ : BestEffort))
        (Manager.note .info message' >>= fun _ => pure (⟨arena', solution', other'⟩ : BestEffort))
        m' n' fun result result' s t => BestEffort.Copies s t result result' := by
    intro other other' message message' m₆ n₆ h₆ hle₆ hle₆' hother
    refine paced_note_bind h₆ _ _ _ fun m₇ n₇ h₇ hle₇ hle₇' => ?_
    have hle := hle₆.1.trans hle₇.1
    have hle' := hle₆'.1.trans hle₇'.1
    refine lockstep_pure h₇ ⟨harena.mono hle hle', hsolution.mono hle hle', ?_⟩
    cases hother with
    | none => exact .none
    | some hs => exact .some (hs.mono hle₇.1 hle₇'.1)
  rw [hsolution.realizable_eq]
  split
  · exact hlast _ _ m₅ n₅ h₅ le_rfl le_rfl .none
  · have hspace := hspace.mono hle₅.1 hle₅'.1
    apply (paced_cooperativeGoal h₅ (henc.mono hle₅.1 hle₅'.1) (hfinals.mono hle₅.1 hle₅'.1)
      hspace).bind
    intro goal goal' m₆ n₆ h₆ hle₆ hle₆' hgoal
    apply (paced_lift h₆ (Game.paced_solve
      (copies_agentGame (harena.mono hle₆.1 hle₆'.1) maxIterations) h₆.store _ hgoal
      (hspace.mono hle₆.1 hle₆'.1))).bind
    intro other other' m₇ n₇ h₇ hle₇ hle₇' hother
    exact hlast _ _ m₇ n₇ h₇ (hle₆.trans hle₇) (hle₆'.trans hle₇') (.some hother)

/-- Each procedure solves copies of an encoding alike. -/
theorem paced_solve (algorithm : Algorithm) (maxIterations : Option Nat) :
    Manager.Paced (encoding.solve algorithm maxIterations)
      (encoding'.solve algorithm maxIterations) m n
      fun outcome outcome' s t => Outcome.Copies s t outcome outcome' := by
  unfold solve
  refine paced_note_bind h _ _ _ fun m₁ n₁ h₁ hle₁ hle₁' => ?_
  have henc := henc.mono hle₁.1 hle₁'.1
  cases algorithm with
  | adversarial =>
    exact (paced_solveAdversarial h₁ henc maxIterations).bind fun _ _ _ _ h₂ _ _ hs =>
      lockstep_pure h₂ (.adversarial hs)
  | cooperative =>
    exact (paced_solveCooperative h₁ henc maxIterations).bind fun _ _ _ _ h₂ _ _ hs =>
      lockstep_pure h₂ (.cooperative hs)
  | bestEffort =>
    exact (paced_solveBestEffort h₁ henc maxIterations).bind fun _ _ _ _ h₂ _ _ hs =>
      lockstep_pure h₂ (.bestEffort hs)

end Solving

end Encoding

end PlanningGame
