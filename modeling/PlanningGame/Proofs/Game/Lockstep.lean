import Mathlib
import PlanningGame.Game.BestEffort
import PlanningGame.Proofs.Diagram.Lockstep

/-!
# Games on copies

A copy of an automaton has the same variables and initial values, and its diagrams are copies. Games
on such automata are solved in lockstep: the solutions have the same outcome, count and regions, and
their strategies choose the same.
-/
namespace PlanningGame

open Diagram

variable {s t s' t' : Store}

/-- The second automaton has the same variables and initial values as the first, and copies of its
diagrams. -/
structure Automaton.Copies (s t : Store) (automaton automaton' : Automaton) : Prop where
  block_eq : automaton'.block = automaton.block
  stateVars_eq : automaton'.stateVars = automaton.stateVars
  initial_eq : automaton'.initial = automaton.initial
  inputs_eq : automaton'.inputs = automaton.inputs
  outputs_eq : automaton'.outputs = automaton.outputs
  next : CopiesEach s t automaton.next automaton'.next
  finals : s.Copies t automaton.finals automaton'.finals

namespace Automaton.Copies

variable {automaton automaton' : Automaton} {e e' : Edge}

theorem mono (h : Automaton.Copies s t automaton automaton') (hle : s ≤ s') (hle' : t ≤ t') :
    Automaton.Copies s' t' automaton automaton' :=
  ⟨h.1, h.2, h.3, h.4, h.5, h.next.mono hle hle', h.finals.mono hle hle'⟩

variable (h : Automaton.Copies s t automaton automaton')
include h

theorem valuation_eq (state : List Bool) (letters : Valuation) :
    automaton'.valuation state letters = automaton.valuation state letters := by
  rw [Automaton.valuation, Automaton.valuation, h.stateVars_eq]

theorem satisfies_eq (hpaired : s.Paired t) (he : s.Copies t e e') (state : List Bool) :
    automaton'.satisfies t e' state = automaton.satisfies s e state := by
  rw [Automaton.satisfies, Automaton.satisfies, h.valuation_eq,
    he.eval_eq hpaired.left.toFounded hpaired.right.toFounded]

theorem step_eq (hpaired : s.Paired t) (state : List Bool) (letters : Valuation) :
    automaton'.step t state letters = automaton.step s state letters := by
  unfold Automaton.step
  rw [h.initial_eq]
  have hnext : automaton'.next.map (fun e => t.eval e (automaton'.valuation state letters)) =
      automaton.next.map fun e => s.eval e (automaton.valuation state letters) := by
    rw [h.valuation_eq]
    exact map_eq_of_forall₂ h.next fun _ _ he =>
      he.eval_eq hpaired.left.toFounded hpaired.right.toFounded _
  rw [hnext]

theorem nextValues : CopiesMap s t automaton.nextValues automaton'.nextValues := by
  unfold Automaton.nextValues
  rw [h.stateVars_eq]
  refine copiesMap_ofList ?_
  have hedges := h.next
  generalize automaton.next = edges at hedges ⊢
  generalize automaton'.next = edges' at hedges ⊢
  generalize automaton.stateVars = vars
  induction hedges generalizing vars with
  | nil => simp
  | cons he _ ih =>
    cases vars with
    | nil => exact .nil
    | cons v vars => exact .cons ⟨rfl, he⟩ (ih vars)

end Automaton.Copies

/-- The second game is played on a copy of the first arena, by the same rules. -/
structure Game.Copies (s t : Store) (game game' : Game) : Prop where
  arena : Automaton.Copies s t game.arena game'.arena
  starting_eq : game'.starting = game.starting
  protagonist_eq : game'.protagonist = game.protagonist
  constraint : s.Copies t game.constraint game'.constraint
  maxIterations_eq : game'.maxIterations = game.maxIterations

theorem Encoding.copies_agentGame {arena arena' : Automaton} (h : Automaton.Copies s t arena arena')
    (maxIterations : Option Nat) :
    Game.Copies s t (agentGame arena maxIterations) (agentGame arena' maxIterations) :=
  ⟨h, rfl, rfl, .terminal rfl, rfl⟩

/-- The strategies choose by copies of the same functions. -/
structure Strategy.Copies (s t : Store) (strategy strategy' : Strategy) : Prop where
  arena : Automaton.Copies s t strategy.arena strategy'.arena
  functions : CopiesMap s t strategy.functions strategy'.functions
  starting_eq : strategy'.starting = strategy.starting
  protagonist_eq : strategy'.protagonist = strategy.protagonist

theorem Strategy.Copies.output_eq {strategy strategy' : Strategy}
    (h : Strategy.Copies s t strategy strategy') (hpaired : s.Paired t) (state : List Bool)
    (observed : Valuation) :
    strategy'.output t state observed = strategy.output s state observed := by
  unfold Strategy.output
  rw [h.arena.initial_eq, h.arena.valuation_eq]
  have hvalues : ∀ a : Valuation, strategy'.functions.toList.map (fun p => (p.1, t.eval p.2 a)) =
      strategy.functions.toList.map fun p => (p.1, s.eval p.2 a) := fun a =>
    map_eq_of_forall₂ h.functions.toList fun p p' hp => by
      rw [hp.1, hp.2.eval_eq hpaired.left.toFounded hpaired.right.toFounded]
  dsimp only
  split
  · exact congrArg Except.ok (hvalues _)
  · rfl

/-- Such strategies choose the same. -/
theorem Strategy.Copies.choice_eq {strategy strategy' : Strategy}
    (h : Strategy.Copies s t strategy strategy') (hpaired : s.Paired t) (state : List Bool)
    (observed : Valuation) :
    strategy'.choice t state observed = strategy.choice s state observed := by
  have hvars : strategy'.protagonist.vars strategy'.arena =
      strategy.protagonist.vars strategy.arena := by
    rw [h.protagonist_eq]
    cases strategy.protagonist
    · exact h.arena.outputs_eq
    · exact h.arena.inputs_eq
  unfold Strategy.choice
  rw [h.output_eq hpaired, hvars]

/-- Followed on copies, they lead to the same states. -/
theorem Strategy.Copies.next_eq {strategy strategy' : Strategy}
    (h : Strategy.Copies s t strategy strategy') (hpaired : s.Paired t) (state : List Bool)
    (opponent : Valuation) :
    strategy'.next t state opponent = strategy.next s state opponent := by
  simp only [Strategy.next, h.output_eq hpaired, h.arena.step_eq hpaired]

/-- The solutions have the same outcome, and copies of the same diagrams. -/
structure Solution.Copies (s t : Store) (solution solution' : Solution) : Prop where
  realizable_eq : solution'.realizable = solution.realizable
  winningStates : s.Copies t solution.winningStates solution'.winningStates
  winningMoves : s.Copies t solution.winningMoves solution'.winningMoves
  strategy : Strategy.Copies s t solution.strategy solution'.strategy
  iterations_eq : solution'.iterations = solution.iterations
  layers : CopiesEach s t solution.layers solution'.layers

theorem Solution.Copies.mono {solution solution' : Solution}
    (h : Solution.Copies s t solution solution') (hle : s ≤ s') (hle' : t ≤ t') :
    Solution.Copies s' t' solution solution' :=
  ⟨h.1, h.winningStates.mono hle hle', h.winningMoves.mono hle hle',
    ⟨h.strategy.arena.mono hle hle', h.strategy.functions.mono hle hle', h.strategy.3, h.strategy.4⟩,
    h.5, h.layers.mono hle hle'⟩

namespace Game

variable {game game' : Game} {e e' f f' moves moves' states states' space space' goal goal' : Edge}
  {layers layers' : List Edge} {functions functions' : Std.TreeMap Var Edge}

theorem Copies.mono (h : Game.Copies s t game game') (hle : s ≤ s') (hle' : t ≤ t') :
    Game.Copies s' t' game game' :=
  ⟨h.arena.mono hle hle', h.2, h.3, h.constraint.mono hle hle', h.5⟩

section Moves

variable (hgame : Game.Copies s t game game') (h : s.Paired t) (he : s.Copies t e e')
include hgame h he

theorem paced_nextStep : Paced (game.nextStep e) (game'.nextStep e') s t Copied :=
  paced_substitute h hgame.arena.nextValues he

theorem paced_forallInputs : Paced (game.forallInputs e) (game'.forallInputs e') s t Copied := by
  unfold forallInputs
  rw [hgame.arena.inputs_eq]
  exact (paced_imply h hgame.constraint he).bind fun _ _ _ _ h' _ _ hr =>
    paced_quantifyForall h' hr _

theorem paced_existsInputs : Paced (game.existsInputs e) (game'.existsInputs e') s t Copied := by
  unfold existsInputs
  rw [hgame.arena.inputs_eq]
  exact (paced_conj h hgame.constraint he).bind fun _ _ _ _ h' _ _ hr =>
    paced_quantifyExists h' hr _

theorem paced_preimage (attitude : Attitude) :
    Paced (game.preimage attitude e) (game'.preimage attitude e') s t Copied := by
  unfold preimage
  rw [hgame.starting_eq, hgame.protagonist_eq, hgame.arena.outputs_eq]
  refine (paced_nextStep hgame h he).bind fun next next' s₁ t₁ h₁ hle hle' hnext => ?_
  have hgame₁ := hgame.mono hle hle'
  split
  · exact paced_forallInputs hgame₁ h₁ hnext
  · exact paced_quantifyForall h₁ hnext _
  · exact lockstep_pure h₁ hnext
  · exact paced_existsInputs hgame₁ h₁ hnext
  · exact paced_quantifyExists h₁ hnext _

theorem paced_project (attitude : Attitude) :
    Paced (game.project attitude e) (game'.project attitude e') s t Copied := by
  unfold project
  rw [hgame.starting_eq, hgame.protagonist_eq, hgame.arena.outputs_eq]
  dsimp only
  split
  · exact paced_quantifyExists h he _
  · exact (paced_existsInputs hgame h he).bind fun _ _ _ _ h' _ _ hr => paced_quantifyForall h' hr _
  · exact (paced_quantifyExists h he _).bind fun _ _ _ _ h' hle hle' hr =>
      paced_forallInputs (hgame.mono hle hle') h' hr
  · exact paced_existsInputs hgame h he
  · exact (paced_existsInputs hgame h he).bind fun _ _ _ _ h' _ _ hr => paced_quantifyExists h' hr _

end Moves

theorem paced_extractFrom (h : s.Paired t) (hmoves : s.Copies t moves moves')
    (hfunctions : CopiesMap s t functions functions') (vars : List Var) :
    Paced (extractFrom moves functions vars) (extractFrom moves' functions' vars) s t
      fun functions functions' s t => CopiesMap s t functions functions' := by
  induction vars generalizing s t moves moves' functions functions' with
  | nil => exact lockstep_pure h hfunctions
  | cons v rest ih =>
    rw [extractFrom, extractFrom]
    apply (paced_quantifyExists h hmoves rest).bind
    intro possible possible' s₁ t₁ h₁ hle₁ hle₁' hpossible
    apply (paced_restrict h₁ hpossible v true).bind
    intro function function' s₂ t₂ h₂ hle₂ hle₂' hfunction
    have hle := hle₁.trans hle₂
    have hle' := hle₁'.trans hle₂'
    apply (paced_compose h₂ (hmoves.mono hle hle') hfunction v).bind
    intro moves moves' s₃ t₃ h₃ hle₃ hle₃' hmoves
    exact ih h₃ hmoves (((hfunctions.mono hle hle').mono hle₃ hle₃').insert v
      (hfunction.mono hle₃ hle₃'))

theorem Copies.protagonistVars_eq (hgame : Game.Copies s t game game') :
    game'.protagonistVars = game.protagonistVars := by
  unfold protagonistVars
  rw [hgame.protagonist_eq]
  cases game.protagonist
  · exact hgame.arena.outputs_eq
  · exact hgame.arena.inputs_eq

theorem paced_extract (hvars : game'.protagonistVars = game.protagonistVars) (h : s.Paired t)
    (hmoves : s.Copies t moves moves') :
    Paced (game.extract moves) (game'.extract moves') s t
      fun functions functions' s t => CopiesMap s t functions functions' := by
  unfold extract
  rw [hvars]
  apply (paced_extractFrom h hmoves copiesMap_empty _).bind
  intro functions functions' s₁ t₁ h₁ _ _ hfunctions
  exact paced_note_bind h₁ _ _ _ fun s₂ t₂ h₂ hle hle' =>
    lockstep_pure h₂ (hfunctions.mono hle hle')

section Search

variable (hgame : Game.Copies s t game game') (h : s.Paired t)
include hgame h

theorem paced_iterate (attitude : Attitude) (hspace : s.Copies t space space')
    (hmoves : s.Copies t moves moves') (hstates : s.Copies t states states') :
    Paced (game.iterate attitude space moves states) (game'.iterate attitude space' moves' states')
      s t fun found found' s t => s.Copies t found.1 found'.1 ∧ s.Copies t found.2 found'.2 := by
  unfold iterate
  apply (paced_preimage hgame h hstates attitude).bind
  intro leading leading' s₁ t₁ h₁ hle₁ hle₁' hleading
  apply (paced_conj h₁ (hspace.mono hle₁ hle₁') (hstates.mono hle₁ hle₁').neg).bind
  intro new new' s₂ t₂ h₂ hle₂ hle₂' hnew
  apply (paced_conj h₂ hnew (hleading.mono hle₂ hle₂')).bind
  intro fresh fresh' s₃ t₃ h₃ hle₃ hle₃' hfresh
  have hle := hle₁.trans (hle₂.trans hle₃)
  have hle' := hle₁'.trans (hle₂'.trans hle₃')
  apply (paced_disj h₃ (hmoves.mono hle hle') hfresh).bind
  intro more more' s₄ t₄ h₄ hle₄ hle₄' hmore
  apply (paced_project ((hgame.mono hle hle').mono hle₄ hle₄') h₄ hmore attitude).bind
  intro found found' s₅ t₅ h₅ hle₅ hle₅' hfound
  exact lockstep_pure h₅ ⟨hmore.mono hle₅ hle₅', hfound⟩

/-- The searches stop after the same iteration, as equal edges have equal copies. -/
theorem paced_solveFrom (attitude : Attitude) (hspace : s.Copies t space space') (remaining : Nat)
    (hmoves : s.Copies t moves moves') (hstates : s.Copies t states states')
    (hlayers : CopiesEach s t layers layers') :
    Paced (game.solveFrom attitude space remaining moves states layers)
      (game'.solveFrom attitude space' remaining moves' states' layers') s t
      fun solution solution' s t => Solution.Copies s t solution solution' := by
  induction remaining generalizing s t moves moves' states states' layers layers' with
  | zero =>
    rw [solveFrom, solveFrom, List.Forall₂.length_eq hlayers]
    exact lockstep_throw _ h
  | succ remaining ih =>
    rw [solveFrom, solveFrom]
    apply (paced_iterate hgame h attitude hspace hmoves hstates).bind
    intro found found' s₁ t₁ h₁ hle₁ hle₁' hfound
    obtain ⟨moves₁, states₁⟩ := found
    obtain ⟨moves₁', states₁'⟩ := found'
    obtain ⟨hmoves₁, hstates₁⟩ := hfound
    dsimp only at hmoves₁ hstates₁ ⊢
    have hgame₁ := hgame.mono hle₁ hle₁'
    have hlayers₁ : CopiesEach s₁ t₁ (states₁ :: layers) (states₁' :: layers') :=
      .cons hstates₁ (hlayers.mono hle₁ hle₁')
    have hlength := List.Forall₂.length_eq hlayers₁
    have hincludes : game'.includesInitial t₁ states₁' = game.includesInitial s₁ states₁ := by
      unfold includesInitial
      rw [hgame₁.arena.initial_eq, hgame₁.arena.satisfies_eq h₁ hstates₁]
    have hsame := hstates₁.eq_iff (hstates.mono hle₁ hle₁') h₁.left.toFounded h₁.right.toFounded
    refine Paced.of_current ?_
    refine paced_note_bind h₁ _ _ _ fun s₂ t₂ h₂ hle₂ hle₂' => ?_
    have hgame₂ := hgame₁.mono hle₂ hle₂'
    have hmoves₂ := hmoves₁.mono hle₂ hle₂'
    rw [hincludes]
    simp only [hsame]
    split
    · refine paced_note_bind h₂ _ _ _ fun s₃ t₃ h₃ hle₃ hle₃' => ?_
      have hgame₃ := hgame₂.mono hle₃ hle₃'
      apply (paced_extract hgame₃.protagonistVars_eq h₃ (hmoves₂.mono hle₃ hle₃')).bind
      intro functions functions' s₄ t₄ h₄ hle₄ hle₄' hfunctions
      have hle := hle₂.trans (hle₃.trans hle₄)
      have hle' := hle₂'.trans (hle₃'.trans hle₄')
      refine lockstep_pure h₄ ⟨rfl, hstates₁.mono hle hle', hmoves₁.mono hle hle',
        ⟨hgame₁.arena.mono hle hle', hfunctions, hgame.starting_eq, hgame.protagonist_eq⟩,
        hlength.symm, ?_⟩
      exact List.rel_reverse (hlayers₁.mono hle hle')
    · exact ih hgame₂ h₂ ((hspace.mono hle₁ hle₁').mono hle₂ hle₂') hmoves₂
        (hstates₁.mono hle₂ hle₂') (hlayers₁.mono hle₂ hle₂')

theorem paced_solve (attitude : Attitude) (hgoal : s.Copies t goal goal')
    (hspace : s.Copies t space space') :
    Paced (game.solve attitude goal space) (game'.solve attitude goal' space') s t
      fun solution solution' s t => Solution.Copies s t solution solution' := by
  have hbound : game'.iterationBound = game.iterationBound := by
    unfold iterationBound
    rw [hgame.maxIterations_eq, hgame.arena.initial_eq]
  unfold solve
  rw [hgame.arena.inputs_eq, hgame.arena.outputs_eq, hbound]
  apply (paced_conj h hspace hgoal).bind
  intro moves moves' s₁ t₁ h₁ hle₁ hle₁' hmoves
  apply (paced_quantifyExists h₁ hmoves _).bind
  intro states states' s₂ t₂ h₂ hle₂ hle₂' hstates
  have hle := hle₁.trans hle₂
  have hle' := hle₁'.trans hle₂'
  exact paced_solveFrom (hgame.mono hle hle') h₂ attitude (hspace.mono hle hle') _
    (hmoves.mono hle₂ hle₂') hstates .nil

end Search

end Game

end PlanningGame
