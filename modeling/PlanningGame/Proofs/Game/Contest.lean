import Mathlib
import PlanningGame.Game.BestEffort
import PlanningGame.Proofs.Game.Cooperation
import PlanningGame.Proofs.Game.Layers

/-!
# Games within games

A game of the agent may be found again within another one. Every state of the first is a state of
the second, the players choose the same bits, and play may be used in the states that correspond in
the same way, with the same next states. The other states of the second game cannot be used for
play. Then each iteration of one search finds the states and moves that correspond to those of the
other, so that both end after the same iteration, and the strategies choose the same.
-/
namespace PlanningGame

namespace Valuation

variable {vars vars' : List Var} {P P' : Valuation → Prop} {a a' b b' : Valuation}

section Bits

variable (hnodup : vars.Nodup) (hnodup' : vars'.Nodup) (hlength : vars.length = vars'.length)
  (hP : ∀ a a', vars.map a = vars'.map a' → (P a ↔ P' a'))
include hnodup hnodup' hlength hP

/-- Properties of the same bits on other variables have bits or have none. -/
theorem exists_iff_of_map : (∃ a, P a) ↔ ∃ a', P' a' := by
  constructor
  · rintro ⟨a, ha⟩
    obtain ⟨a', ha'⟩ : ∃ a', vars'.map a' = vars.map a := exists_map_eq hnodup' (by simp [hlength])
    exact ⟨a', (hP a a' ha'.symm).1 ha⟩
  · rintro ⟨a', ha'⟩
    obtain ⟨a, ha⟩ : ∃ a, vars.map a = vars'.map a' := exists_map_eq hnodup (by simp [hlength])
    exact ⟨a, (hP a a' ha).2 ha'⟩

theorem forall_iff_of_map : (∀ a, P a) ↔ ∀ a', P' a' := by
  have key := not_congr (exists_iff_of_map hnodup hnodup' hlength
    fun a a' h => not_congr (hP a a' h))
  push Not at key
  exact key

end Bits

/-- To outdo is a property of the bits. -/
theorem outdoes_iff_of_map (ha : vars.map a = vars'.map a') (hb : vars.map b = vars'.map b') :
    a.Outdoes b vars ↔ a'.Outdoes b' vars' := by
  induction vars generalizing vars' with
  | nil =>
    obtain rfl : vars' = [] := List.map_eq_nil_iff.1 ha.symm
    rfl
  | cons v rest ih =>
    cases vars' with
    | nil => simp at ha
    | cons v' rest' =>
      obtain ⟨hav, ha⟩ := List.cons.inj ha
      obtain ⟨hbv, hb⟩ := List.cons.inj hb
      unfold Outdoes
      rw [hav, hbv, ih ha hb]

end Valuation

/-- The sets of states are the same, and the second has no other states. -/
structure SameStates (ι : List Bool → List Bool) (n n' : Nat) (W W' : List Bool → Bool) : Prop where
  inside : ∀ s : List Bool, s.length = n → W' (ι s) = W s
  outside : ∀ t : List Bool, t.length = n' → (∀ s, s.length = n → t ≠ ι s) → W' t = false

/-- The strategy refuses what is not a state of the arena. -/
def Strategy.Refuses (strategy : Strategy) (arena : Automaton) (store : Store) : Prop :=
  ∀ (s : List Bool) (o : Valuation), s.length ≠ arena.stateVars.length →
    strategy.choice store s o = .error (.stateLength arena.stateVars.length s.length)

/-- The solutions of games on two arenas have the same outcome and count, they find the same states
in every iteration, and their strategies choose the same number in the same states and refuse all
other lists of bits. -/
structure Solution.Agrees (ι : List Bool → List Bool) (arena arena' : Automaton)
    (store store' : Store) (solution solution' : Solution) : Prop where
  length : ∀ s : List Bool, s.length = arena.stateVars.length →
    (ι s).length = arena'.stateVars.length
  realizable : solution'.realizable = solution.realizable
  iterations : solution'.iterations = solution.iterations
  winning : SameStates ι arena.stateVars.length arena'.stateVars.length
    (arena.satisfies store solution.winningStates) (arena'.satisfies store' solution'.winningStates)
  layers : List.Forall₂ (fun e e' => SameStates ι arena.stateVars.length arena'.stateVars.length
    (arena.satisfies store e) (arena'.satisfies store' e')) solution.layers solution'.layers
  choice : ∀ s : List Bool, s.length = arena.stateVars.length → ∀ o o' : Valuation,
    solution'.strategy.choice store' (ι s) o' = solution.strategy.choice store s o
  refuses : solution.strategy.Refuses arena store
  refuses' : solution'.strategy.Refuses arena' store'

/-- On two arenas with the same states, the strategies choose the same for any list of bits, or both
refuse it in the same way. -/
theorem Solution.Agrees.choice_eq {arena arena' : Automaton} {store store' : Store}
    {solution solution' : Solution} (h : Solution.Agrees id arena arena' store store' solution
      solution') (s : List Bool) (o o' : Valuation) :
    solution'.strategy.choice store' s o' = solution.strategy.choice store s o := by
  have hlength : arena.stateVars.length = arena'.stateVars.length := by
    simpa using h.length (List.replicate arena.stateVars.length false) (by simp)
  by_cases hs : s.length = arena.stateVars.length
  · exact h.choice s hs o o'
  · rw [h.refuses s o hs, h.refuses' s o' (hlength ▸ hs), hlength]

/-- Both outcomes are answers that belong together, or the same failure. -/
inductive SameEnd {α β : Type} (alike : α → β → Prop) : Except Failure α → Except Failure β → Prop
  | answered {a : α} {b : β} (h : alike a b) : SameEnd alike (.ok a) (.ok b)
  | failed (failure : Failure) : SameEnd alike (.error failure) (.error failure)

theorem SameEnd.map {α β γ δ : Type} {alike : α → β → Prop} {post : γ → δ → Prop} {f : α → γ}
    {g : β → δ} {outcome : Except Failure α} {outcome' : Except Failure β}
    (h : SameEnd alike outcome outcome') (hfg : ∀ a b, alike a b → post (f a) (g b)) :
    SameEnd post (outcome.map f) (outcome'.map g) := by
  cases h with
  | answered hab => exact .answered (hfg _ _ hab)
  | failed failure => exact .failed failure

namespace Game

open Diagram
open Encoding (agentGame)

/-- A game of the agent, in the store in which its diagrams are found. -/
structure Contest where
  store : Store
  arena : Automaton
  attitude : Attitude
  goal : Edge
  space : Edge
  maxIterations : Option Nat

namespace Contest

/-- The agent moves first and wants to reach the goal. -/
def game (c : Contest) : Game :=
  agentGame c.arena c.maxIterations

/-- The moves found after a number of iterations. -/
def moves (c : Contest) (k : Nat) : MoveSet :=
  movesAfter c.game c.store c.attitude c.goal c.space k

/-- The states found after a number of iterations. -/
def states (c : Contest) (k : Nat) : MoveSet :=
  statesAfter c.game c.store c.attitude c.goal c.space k

/-- The search ends with the next iteration. -/
def Halts (c : Contest) (k : Nat) : Prop :=
  Game.Halts c.game c.store c.attitude c.goal c.space k

/-- The search is answered. -/
def Answered (c : Contest) (later : Store) (solution : Solution) : Prop :=
  Game.Answered c.store later c.game c.attitude c.goal c.space solution

/-- The search goes through all the iterations that it was given without an end. -/
def Diverges (c : Contest) (failure : Failure) : Prop :=
  ∃ bound, c.maxIterations = some bound ∧ failure = .refused (.fixpointDiverged bound) ∧
    ∀ i < bound, ¬ c.Halts i

/-- The search is answered, or goes through all its iterations. -/
def Ends (c : Contest) (later : Store) : Except Failure Solution → Prop
  | .ok solution => c.store ≤ later ∧ c.Answered later solution
  | .error failure => c.Diverges failure

/-- The diagrams of a game that can be solved. -/
structure Posed (c : Contest) : Prop where
  sound : c.store.Sound
  closed : c.game.Closed c.store c.goal c.space
  ne_zero : ∀ v ∈ c.arena.outputs, v ≠ 0

variable {c c' : Contest} {later : Store} {solution : Solution} {failure : Failure} {k : Nat}
  {s : List Bool} {X Y : Valuation}

theorem Posed.arena (h : c.Posed) : c.arena.Closed c.store :=
  h.closed.arena

theorem Posed.unseeing (h : c.Posed) (k : Nat) :
    Unseeing c.game c.store c.attitude c.goal c.space k := by
  cases c.attitude with
  | adversarial => exact h.closed.unseeing_adversarial rfl rfl k
  | cooperative => exact h.closed.unseeing_cooperative rfl rfl k

/-- A search in a store with room is answered, or goes through the iterations it was given. -/
theorem Posed.concludes (h : c.Posed) :
    Concludes Store.Sound (c.game.solve c.attitude c.goal c.space) c.store
      (fun solution later => c.Answered later solution)
      fun failure later => HasRoom later → c.Diverges failure := by
  refine (concludes_search h.sound h.closed.readable).weaken (fun _ _ _ _ _ hanswer => hanswer)
    fun failure later _ hgives hroom => ?_
  cases hgives with
  | full hfull => exact absurd hroom (Nat.not_lt.2 hfull)
  | zero hzero => exact absurd rfl (h.ne_zero 0 hzero)
  | diverged hsearched hlength hnot =>
    cases hbound : c.maxIterations with
    | none =>
      exact (hsearched.absurd_of_default h.arena (fun _ => h.closed.causal) hlength hnot hbound).elim
    | some bound =>
      have hiterations : c.game.iterationBound = bound := by
        change c.maxIterations.getD _ = _
        rw [hbound, Option.getD_some]
      rw [hiterations] at hnot ⊢
      exact ⟨bound, hbound, rfl, hnot⟩

/-- A search that is answered ends within the iterations it was given. -/
theorem Answered.not_diverges (h : c.Answered later solution) : ¬ c.Diverges failure := by
  rintro ⟨bound, hbound, -, hnot⟩
  obtain ⟨k, hk, hhalts, -⟩ := h.ends
  have hiterations : c.game.iterationBound = bound := by
    change c.maxIterations.getD _ = _
    rw [hbound, Option.getD_some]
  have hle := h.iterations_le
  exact hnot k (by omega) hhalts

theorem Diverges.failure_eq {failure' : Failure} (h : c.Diverges failure)
    (h' : c.Diverges failure') : failure = failure' := by
  obtain ⟨bound, hbound, rfl, -⟩ := h
  obtain ⟨bound', hbound', rfl, -⟩ := h'
  rw [hbound, Option.some.injEq] at hbound'
  rw [hbound']

theorem Answered.mono {last : Store} (h : c.Answered later solution) (hr : later.Reduced)
    (hle : later ≤ last) : c.Answered last solution :=
  Game.Answered.mono h hr hle

/-- The winning states are those that the search has found. -/
theorem Answered.satisfies_iff (h : c.Answered later solution) (hposed : c.Posed)
    (hs : s.length = c.arena.stateVars.length) :
    c.arena.satisfies later solution.winningStates s = true ↔
      c.states solution.iterations s (fun _ => false) fun _ => false :=
  h.states.satisfies_iff hposed.arena (reads_statesAfter _) hs

/-- The winning states are a property of states. -/
theorem Answered.denotes_winningStates (h : c.Answered later solution) (hposed : c.Posed) :
    later.Denotes solution.winningStates fun a =>
      c.arena.satisfies later solution.winningStates (c.arena.stateOf a) = true := by
  refine h.states.congr fun a => ?_
  have hlength := c.arena.stateOf_length a
  rw [h.satisfies_iff hposed hlength]
  exact ofStates_statesAfter hposed.arena (fun _ => hposed.closed.causal) _ _ hlength _ _ _ _

/-- The strategy reads the states of the arena only. -/
theorem Answered.refuses (h : c.Answered later solution) (hposed : c.Posed) :
    solution.strategy.Refuses c.arena later := by
  intro s o hs
  have harena : solution.strategy.arena = c.arena := Game.Answered.arena h
  have hinitial := hposed.arena.initial_length
  rw [← harena] at hinitial hs ⊢
  rw [← hinitial] at hs ⊢
  unfold Strategy.choice Strategy.output
  dsimp only
  rw [if_neg hs]
  rfl

/-- States are read off moves. -/
theorem exists_of_statesOf {M : MoveSet}
    (h : statesOf c.game c.store c.attitude k M s X Y) : ∃ X Y, M s X Y := by
  cases k with
  | zero => exact h
  | succ k =>
    change projectionOf c.game c.store c.attitude M s X Y at h
    unfold projectionOf at h
    cases hattitude : c.attitude <;> rw [hattitude] at h
    · exact ⟨X, h⟩
    · obtain ⟨Y, X, -, hM⟩ := h
      exact ⟨X, Y, hM⟩

end Contest

/-- The players choose the same bits in both arenas. -/
structure SameBits (arena arena' : Automaton) (X X' Y Y' : Valuation) : Prop where
  inputs : arena.inputs.map X = arena'.inputs.map X'
  outputs : arena.outputs.map Y = arena'.outputs.map Y'

section Bits

variable {arena arena' : Automaton} {store : Store} {X X' Y Y' : Valuation}

theorem SameBits.symm (h : SameBits arena arena' X X' Y Y') : SameBits arena' arena X' X Y' Y :=
  ⟨h.inputs.symm, h.outputs.symm⟩

theorem sameBits_false (hinputs : arena.inputs.length = arena'.inputs.length)
    (houtputs : arena.outputs.length = arena'.outputs.length) :
    SameBits arena arena' (fun _ => false) (fun _ => false) (fun _ => false) fun _ => false := by
  constructor <;> rw [List.map_const', List.map_const']
  · rw [hinputs]
  · rw [houtputs]

/-- In any state there are moves with the bits of moves in the other arena. -/
theorem exists_sameBits (harena : arena.Closed store)
    (hinputs : arena.inputs.length = arena'.inputs.length)
    (houtputs : arena.outputs.length = arena'.outputs.length) {s : List Bool}
    (hs : s.length = arena.stateVars.length) (a' : Valuation) :
    ∃ a, arena.stateOf a = s ∧ SameBits arena arena' a a' a a' := by
  obtain ⟨a, ha⟩ : ∃ a : Valuation,
      arena.vars.map a = s ++ (arena'.inputs.map a' ++ arena'.outputs.map a') :=
    Valuation.exists_map_eq harena.nodup (by simp [Automaton.vars, hs, hinputs, houtputs])
  rw [Automaton.vars, List.map_append, List.map_append] at ha
  obtain ⟨hstate, hmoves⟩ := List.append_inj ha (by simp [hs])
  obtain ⟨hins, houts⟩ := List.append_inj hmoves (by simp [hinputs])
  exact ⟨a, hstate, hins, houts⟩

end Bits

/-- The moves of the second arena in states of the first are the moves of the first. -/
def Corresponds (ι : List Bool → List Bool) (arena arena' : Automaton) (M M' : MoveSet) : Prop :=
  ∀ s : List Bool, s.length = arena.stateVars.length → ∀ X X' Y Y',
    SameBits arena arena' X X' Y Y' → (M s X Y ↔ M' (ι s) X' Y')

/-- The first game is found again within the second. -/
structure Embeds (ι : List Bool → List Bool) (c c' : Contest) : Prop where
  attitude_eq : c'.attitude = c.attitude
  maxIterations_eq : c'.maxIterations = c.maxIterations
  inputs_length : c.arena.inputs.length = c'.arena.inputs.length
  outputs_length : c.arena.outputs.length = c'.arena.outputs.length
  length : ∀ s : List Bool, s.length = c.arena.stateVars.length →
    (ι s).length = c'.arena.stateVars.length
  initial : c'.arena.initial = ι c.arena.initial
  space_iff : Corresponds ι c.arena c'.arena (c.arena.Holds c.store c.space)
    (c'.arena.Holds c'.store c'.space)
  goal_iff : Corresponds ι c.arena c'.arena
    (fun s X Y => c.arena.Holds c.store c.space s X Y ∧ c.arena.Holds c.store c.goal s X Y)
    fun s X Y => c'.arena.Holds c'.store c'.space s X Y ∧ c'.arena.Holds c'.store c'.goal s X Y
  successor_eq : ∀ s : List Bool, s.length = c.arena.stateVars.length → ∀ X X' Y Y',
    SameBits c.arena c'.arena X X' Y Y' → c.arena.Holds c.store c.space s X Y →
      c'.arena.successor c'.store (ι s) X' Y' = ι (c.arena.successor c.store s X Y)
  outside : ∀ t : List Bool, t.length = c'.arena.stateVars.length →
    (∀ s : List Bool, s.length = c.arena.stateVars.length → t ≠ ι s) →
      ∀ X Y, ¬ c'.arena.Holds c'.store c'.space t X Y

namespace Embeds

variable {ι : List Bool → List Bool} {c c' : Contest} {M M' : MoveSet} {k : Nat}

variable (h : Embeds ι c c') (hposed : c.Posed) (hposed' : c'.Posed)
include h hposed hposed'

theorem exists_inputs_iff {P P' : Valuation → Prop}
    (hP : ∀ X X', c.arena.inputs.map X = c'.arena.inputs.map X' → (P X ↔ P' X')) :
    (∃ X, P X) ↔ ∃ X', P' X' := by
  have hmoves := (List.nodup_append.1 hposed.arena.nodup).2.1
  have hmoves' := (List.nodup_append.1 hposed'.arena.nodup).2.1
  exact Valuation.exists_iff_of_map (List.nodup_append.1 hmoves).1 (List.nodup_append.1 hmoves').1
    h.inputs_length hP

theorem forall_inputs_iff {P P' : Valuation → Prop}
    (hP : ∀ X X', c.arena.inputs.map X = c'.arena.inputs.map X' → (P X ↔ P' X')) :
    (∀ X, P X) ↔ ∀ X', P' X' := by
  have hmoves := (List.nodup_append.1 hposed.arena.nodup).2.1
  have hmoves' := (List.nodup_append.1 hposed'.arena.nodup).2.1
  exact Valuation.forall_iff_of_map (List.nodup_append.1 hmoves).1 (List.nodup_append.1 hmoves').1
    h.inputs_length hP

theorem exists_outputs_iff {P P' : Valuation → Prop}
    (hP : ∀ Y Y', c.arena.outputs.map Y = c'.arena.outputs.map Y' → (P Y ↔ P' Y')) :
    (∃ Y, P Y) ↔ ∃ Y', P' Y' := by
  have hmoves := (List.nodup_append.1 hposed.arena.nodup).2.1
  have hmoves' := (List.nodup_append.1 hposed'.arena.nodup).2.1
  exact Valuation.exists_iff_of_map (List.nodup_append.1 hmoves).2.1
    (List.nodup_append.1 hmoves').2.1 h.outputs_length hP

/-- There are corresponding moves in both arenas or in none. -/
theorem exists_moves_iff (hM : Corresponds ι c.arena c'.arena M M') {s : List Bool}
    (hs : s.length = c.arena.stateVars.length) :
    (∃ X Y, M s X Y) ↔ ∃ X Y, M' (ι s) X Y :=
  h.exists_inputs_iff hposed hposed' fun _ _ hX =>
    h.exists_outputs_iff hposed hposed' fun _ _ hY => hM s hs _ _ _ _ ⟨hX, hY⟩

theorem statesOf (hM : Corresponds ι c.arena c'.arena M M') (k : Nat) :
    Corresponds ι c.arena c'.arena (statesOf c.game c.store c.attitude k M)
      (statesOf c'.game c'.store c'.attitude k M') := by
  intro s hs X X' Y Y' hbits
  cases k with
  | zero => exact h.exists_moves_iff hposed hposed' hM hs
  | succ k =>
    change projectionOf c.game c.store c.attitude M s X Y ↔
      projectionOf c'.game c'.store c'.attitude M' (ι s) X' Y'
    rw [h.attitude_eq]
    unfold projectionOf
    cases c.attitude with
    | adversarial =>
      exact h.exists_outputs_iff hposed hposed' fun Y Y' hY =>
        hM s hs X X' Y Y' ⟨hbits.inputs, hY⟩
    | cooperative =>
      refine h.exists_outputs_iff hposed hposed' fun Y Y' hY =>
        h.exists_inputs_iff hposed hposed' fun X X' hX => ?_
      exact and_congr (iff_of_true (holds_constraint rfl s X Y) (holds_constraint rfl (ι s) X' Y'))
        (hM s hs X X' Y Y' ⟨hX, hY⟩)

/-- Moves into states that correspond correspond, where play may be used. -/
theorem preimageOf (hM : Corresponds ι c.arena c'.arena M M') {s : List Bool}
    (hs : s.length = c.arena.stateVars.length) {X X' Y Y' : Valuation}
    (hbits : SameBits c.arena c'.arena X X' Y Y') (hspace : c.arena.Holds c.store c.space s X Y) :
    preimageOf c.game c.store c.attitude M s X Y ↔
      preimageOf c'.game c'.store c'.attitude M' (ι s) X' Y' := by
  have hnext : ∀ X X', c.arena.inputs.map X = c'.arena.inputs.map X' →
      (M (c.arena.successor c.store s X Y) X Y ↔
        M' (c'.arena.successor c'.store (ι s) X' Y') X' Y') := by
    intro Z Z' hZ
    have hsame : SameBits c.arena c'.arena Z Z' Y Y' := ⟨hZ, hbits.outputs⟩
    have hspace : c.arena.Holds c.store c.space s Z Y :=
      (Automaton.holds_of_over_outputs hposed.arena hposed.closed.space_over hs).1 hspace
    rw [h.successor_eq s hs Z Z' Y Y' hsame hspace]
    exact hM _ (Automaton.successor_length hposed.arena) Z Z' Y Y' hsame
  rw [h.attitude_eq]
  unfold Game.preimageOf
  cases c.attitude with
  | adversarial =>
    exact h.forall_inputs_iff hposed hposed' fun X X' hX =>
      imp_congr (iff_of_true (holds_constraint rfl s X Y) (holds_constraint rfl (ι s) X' Y'))
        (hnext X X' hX)
  | cooperative =>
    exact h.exists_inputs_iff hposed hposed' fun X X' hX =>
      and_congr (iff_of_true (holds_constraint rfl s X Y) (holds_constraint rfl (ι s) X' Y'))
        (hnext X X' hX)

/-- The moves found correspond after every iteration. -/
theorem moves (k : Nat) : Corresponds ι c.arena c'.arena (c.moves k) (c'.moves k) := by
  induction k with
  | zero => exact h.goal_iff
  | succ k ih =>
    intro s hs X X' Y Y' hbits
    refine or_congr (ih s hs X X' Y Y' hbits) ?_
    rw [and_assoc, and_assoc]
    have hstates := h.statesOf hposed hposed' ih k
    refine (and_congr_right fun hspace => ?_).trans
      (and_congr_left' (h.space_iff s hs X X' Y Y' hbits))
    exact and_congr (not_congr (hstates s hs X X' Y Y' hbits))
      (h.preimageOf hposed hposed' hstates hs hbits hspace)

theorem states (k : Nat) : Corresponds ι c.arena c'.arena (c.states k) (c'.states k) :=
  h.statesOf hposed hposed' (h.moves hposed hposed' k) k

omit hposed hposed' in
/-- States that are not those of the first game are not found. -/
theorem not_states {t : List Bool} (ht : t.length = c'.arena.stateVars.length)
    (hnot : ∀ s : List Bool, s.length = c.arena.stateVars.length → t ≠ ι s) (X Y : Valuation) :
    ¬ c'.states k t X Y := by
  intro hstates
  obtain ⟨X, Y, hmove⟩ := Contest.exists_of_statesOf hstates
  exact h.outside t ht hnot X Y (holds_space_of_movesAfter hmove)

/-- Both searches end with the same iteration. -/
theorem halts_iff (k : Nat) : c.Halts k ↔ c'.Halts k := by
  have hstates := h.states hposed hposed'
  refine or_congr ?_ ⟨fun hsame a' => ?_, fun hsame a => ?_⟩
  · have hinitial := hstates (k + 1) _ hposed.arena.initial_length _ _ _ _
      (sameBits_false h.inputs_length h.outputs_length)
    rwa [← h.initial] at hinitial
  · by_cases hinside : ∃ s : List Bool, s.length = c.arena.stateVars.length ∧
        c'.arena.stateOf a' = ι s
    · obtain ⟨s, hs, hstate⟩ := hinside
      obtain ⟨a, rfl, hbits⟩ :=
        exists_sameBits hposed.arena h.inputs_length h.outputs_length hs a'
      have hsame := hsame a
      change c'.states (k + 1) (c'.arena.stateOf a') a' a' ↔
        c'.states k (c'.arena.stateOf a') a' a'
      rw [hstate]
      exact (hstates _ _ hs _ _ _ _ hbits).symm.trans (hsame.trans (hstates _ _ hs _ _ _ _ hbits))
    · have houtside : ∀ s : List Bool, s.length = c.arena.stateVars.length →
          c'.arena.stateOf a' ≠ ι s := fun s hs hstate => hinside ⟨s, hs, hstate⟩
      have hlength := c'.arena.stateOf_length a'
      exact iff_of_false (h.not_states hlength houtside a' a') (h.not_states hlength houtside a' a')
  · have hs := c.arena.stateOf_length a
    obtain ⟨a', hstate, hbits⟩ := exists_sameBits hposed'.arena h.inputs_length.symm
      h.outputs_length.symm (h.length _ hs) a
    have hbits := hbits.symm
    have hsame := hsame a'
    change c'.states (k + 1) (c'.arena.stateOf a') a' a' ↔
      c'.states k (c'.arena.stateOf a') a' a' at hsame
    rw [hstate] at hsame
    exact (hstates _ _ hs _ _ _ _ hbits).trans (hsame.trans (hstates _ _ hs _ _ _ _ hbits).symm)

/-- Diagrams of the states found after the same number of iterations have the same states. -/
theorem sameStates {later later' : Store} {e e' : Edge}
    (he : Describes c.game later e (c.states k)) (he' : Describes c'.game later' e' (c'.states k)) :
    SameStates ι c.arena.stateVars.length c'.arena.stateVars.length
      (c.arena.satisfies later e) (c'.arena.satisfies later' e') := by
  have hmem' : ∀ t : List Bool, t.length = c'.arena.stateVars.length →
      (c'.arena.satisfies later' e' t = true ↔
        c'.states k t (fun _ => false) fun _ => false) := fun t ht =>
    he'.satisfies_iff hposed'.arena (reads_statesAfter k) ht
  constructor
  · intro s hs
    have hmem : c.arena.satisfies later e s = true ↔ _ :=
      he.satisfies_iff hposed.arena (reads_statesAfter k) hs
    rw [Bool.eq_iff_iff, hmem, hmem' _ (h.length s hs)]
    exact (h.states hposed hposed' k s hs _ _ _ _
      (sameBits_false h.inputs_length h.outputs_length)).symm
  · intro t ht hnot
    rw [← Bool.not_eq_true, hmem' t ht]
    exact h.not_states ht hnot _ _

/-- The outputs preferred in states that correspond have the same bits. -/
theorem map_eq_of_preferred {s : List Bool} (hs : s.length = c.arena.stateVars.length)
    {Y Y' : Valuation} (hY : Preferred c.game c.store c.attitude c.goal c.space k s Y)
    (hY' : Preferred c'.game c'.store c'.attitude c'.goal c'.space k (ι s) Y') :
    c.arena.outputs.map Y = c'.arena.outputs.map Y' := by
  have hmoves := h.moves hposed hposed' k
  by_cases hfound : ∃ X Y, c.moves k s X Y
  · -- the bits of each of the two on the variables of the other
    obtain ⟨Z, -, hZ⟩ := exists_sameBits hposed.arena h.inputs_length h.outputs_length hs Y'
    obtain ⟨Z', -, hZ'⟩ := exists_sameBits hposed'.arena h.inputs_length.symm
      h.outputs_length.symm (h.length s hs) Y
    have hmove : c.moves k s Y Y := hY.found hfound Y
    have hmove' : c'.moves k (ι s) Y' Y' :=
      hY'.found ((h.exists_moves_iff hposed hposed' hmoves hs).1 hfound) Y'
    rcases Valuation.outdoes_or_eq Y Z c.arena.outputs with houtdoes | houtdoes | heq
    · refine absurd ((Valuation.outdoes_iff_of_map hZ'.outputs.symm hZ.outputs).1 houtdoes) ?_
      exact hY'.greatest Z' Z' ((hmoves s hs Y Z' Y Z' hZ'.symm).1 hmove)
    · exact absurd houtdoes (hY.greatest Z Z ((hmoves s hs Z Y' Z Y' hZ).2 hmove'))
    · exact (List.map_congr_left heq).trans hZ.outputs
  · have hfalse : c.arena.outputs.map Y = c.arena.outputs.map fun _ => false :=
      List.map_congr_left (hY.idle fun X Y hmove => hfound ⟨X, Y, hmove⟩)
    have hfalse' : c'.arena.outputs.map Y' = c'.arena.outputs.map fun _ => false :=
      List.map_congr_left (hY'.idle fun X Y hmove => hfound
        ((h.exists_moves_iff hposed hposed' hmoves hs).2 ⟨X, Y, hmove⟩))
    rw [hfalse, hfalse']
    exact (sameBits_false h.inputs_length h.outputs_length).outputs

theorem iterations_eq {later later' : Store} {solution solution' : Solution}
    (hanswer : c.Answered later solution) (hanswer' : c'.Answered later' solution') :
    solution'.iterations = solution.iterations := by
  obtain ⟨k, hk, hhalts, hnot⟩ := hanswer.ends
  obtain ⟨k', hk', hhalts', hnot'⟩ := hanswer'.ends
  have hiff : ∀ i, c.Halts i ↔ c'.Halts i := h.halts_iff hposed hposed'
  obtain hlt | rfl | hlt := lt_trichotomy k k'
  · exact absurd ((hiff k).1 hhalts) (hnot' k hlt)
  · rw [hk, hk']
  · exact absurd ((hiff k').2 hhalts') (hnot k' hlt)

/-- The solutions of the two games agree. -/
theorem agrees {later later' : Store} {solution solution' : Solution}
    (hle : c.store ≤ later) (hle' : c'.store ≤ later') (hlater : later.Reduced)
    (hlater' : later'.Reduced) (hanswer : c.Answered later solution)
    (hanswer' : c'.Answered later' solution') :
    Solution.Agrees ι c.arena c'.arena later later' solution solution' := by
  have hiterations := h.iterations_eq hposed hposed' hanswer hanswer'
  have hstates' : Describes c'.game later' solution'.winningStates
      (c'.states solution.iterations) := hiterations ▸ hanswer'.states
  have hwinning := h.sameStates hposed hposed' hanswer.states hstates'
  refine ⟨h.length, ?_, hiterations, hwinning, ?_, fun s hs o o' => ?_, hanswer.refuses hposed,
    hanswer'.refuses hposed'⟩
  · have hrealizable := Game.Answered.satisfies_initial_iff hposed.arena hanswer
    have hrealizable' := Game.Answered.satisfies_initial_iff hposed'.arena hanswer'
    have hinitial := hwinning.inside _ hposed.arena.initial_length
    rw [← h.initial] at hinitial
    exact Bool.eq_iff_iff.2 (hrealizable'.symm.trans
      ((Bool.eq_iff_iff.1 hinitial).trans hrealizable))
  · have hlength : solution.layers.length = solution'.layers.length := by
      rw [hanswer.length, hanswer'.length, hiterations]
    refine List.forall₂_iff_get.2 ⟨hlength, fun i hi hi' => ?_⟩
    exact h.sameStates hposed hposed'
      (hanswer.layers i _ (List.getElem?_eq_getElem hi))
      (hanswer'.layers i _ (List.getElem?_eq_getElem hi'))
  · obtain ⟨Y, hchoice, -, hY⟩ := Game.Answered.exists_choice hposed.sound.toReduced hle hlater
      hposed.closed.readable hanswer rfl (hposed.unseeing _) hs
    obtain ⟨Y', hchoice', -, hY'⟩ := Game.Answered.exists_choice hposed'.sound.toReduced hle'
      hlater' hposed'.closed.readable hanswer' rfl (hposed'.unseeing _) (h.length s hs)
    rw [hiterations] at hY'
    rw [hchoice, hchoice']
    exact congrArg (fun bits => Except.ok (Binary.decode bits))
      (h.map_eq_of_preferred hposed hposed' hs hY hY').symm

/-- Both searches go through the iterations they were given, or none. -/
theorem diverges_iff {failure : Failure} : c.Diverges failure ↔ c'.Diverges failure := by
  have hhalts := fun k => not_congr (h.halts_iff hposed hposed' k)
  simp only [Contest.Diverges, h.maxIterations_eq, hhalts]

/-- Searches that end both end in the same way. -/
theorem sameEnd {later later' : Store} {outcome outcome' : Except Failure Solution}
    (hlater : later.Reduced) (hlater' : later'.Reduced) (hends : c.Ends later outcome)
    (hends' : c'.Ends later' outcome') :
    SameEnd (Solution.Agrees ι c.arena c'.arena later later') outcome outcome' := by
  have hdiverges : ∀ {failure}, c.Diverges failure ↔ c'.Diverges failure :=
    h.diverges_iff hposed hposed'
  cases outcome <;> cases outcome'
  · obtain rfl := (hdiverges.1 hends).failure_eq hends'
    exact .failed _
  · exact absurd (hdiverges.1 hends) hends'.2.not_diverges
  · exact absurd (hdiverges.2 hends') hends.2.not_diverges
  · exact .answered (h.agrees hposed hposed' hends.1 hends'.1 hlater hlater' hends.2 hends'.2)

end Embeds

end Game

end PlanningGame
