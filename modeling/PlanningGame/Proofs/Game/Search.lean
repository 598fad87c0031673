import Mathlib
import PlanningGame.Game.Solution
import PlanningGame.Proofs.Game.Arena
import PlanningGame.Proofs.Game.Extraction

/-!
# What the search computes

The diagrams of a search stand for relations between states and joint moves, and every operation of
the search for an operation on such relations: this is what an iteration computes, for either
attitude of the opponent and whoever moves first. The states found are relations too, as nothing
here says that they do not depend on the moves. The search ends with the first iteration that finds
the initial state or changes nothing.
-/
namespace PlanningGame.Game

open Diagram

/-- A relation between states, inputs and outputs. -/
abbrev MoveSet := List Bool → Valuation → Valuation → Prop

/-- A game whose diagrams read variables of the arena only. -/
structure Readable (store : Store) (game : Game) (goal space : Edge) : Prop where
  arena : game.arena.Closed store
  goal_over : store.Over game.arena.vars goal
  space_over : store.Over game.arena.vars space
  constraint_over : store.Over game.arena.vars game.constraint

/-- The diagram of a property of joint moves. -/
def Describes (game : Game) (store : Store) (e : Edge) (R : MoveSet) : Prop :=
  store.Denotes e fun a => R (game.arena.stateOf a) a a

section Relations

variable (game : Game) (store : Store) (attitude : Attitude) (goal space : Edge)

/-- The joint moves from which the protagonist gets to the given states. -/
def preimageOf (W : MoveSet) : MoveSet := fun s X Y =>
  match attitude, game.starting, game.protagonist with
  | .adversarial, .agent, .agent =>
    ∀ X, game.arena.Holds store game.constraint s X Y → W (game.arena.successor store s X Y) X Y
  | .adversarial, .environment, .environment => ∀ Y, W (game.arena.successor store s X Y) X Y
  | .adversarial, _, _ => W (game.arena.successor store s X Y) X Y
  | .cooperative, _, .agent =>
    ∃ X, game.arena.Holds store game.constraint s X Y ∧ W (game.arena.successor store s X Y) X Y
  | .cooperative, _, .environment => ∃ Y, W (game.arena.successor store s X Y) X Y

/-- The states with one of the given moves. Where the player who moves second is not asked for, they
may still depend on that move. -/
def projectionOf (M : MoveSet) : MoveSet := fun s X Y =>
  match attitude, game.starting, game.protagonist with
  | .adversarial, .agent, .agent => ∃ Y, M s X Y
  | .adversarial, .agent, .environment =>
    ∀ Y, ∃ X, game.arena.Holds store game.constraint s X Y ∧ M s X Y
  | .adversarial, .environment, .agent =>
    ∀ X, game.arena.Holds store game.constraint s X Y → ∃ Y, M s X Y
  | .adversarial, .environment, .environment =>
    ∃ X, game.arena.Holds store game.constraint s X Y ∧ M s X Y
  | .cooperative, _, _ => ∃ Y X, game.arena.Holds store game.constraint s X Y ∧ M s X Y

/-- The states of the moves found after a number of iterations. -/
def statesOf : Nat → MoveSet → MoveSet
  | 0, M => fun s _ _ => ∃ X Y, M s X Y
  | _ + 1, M => projectionOf game store attitude M

/-- The moves found after a number of iterations: moves to the goal at first, and then safe moves
from states that are new to states found before. -/
def movesAfter : Nat → MoveSet
  | 0 => fun s X Y => game.arena.Holds store space s X Y ∧ game.arena.Holds store goal s X Y
  | k + 1 => fun s X Y =>
    movesAfter k s X Y ∨
      (game.arena.Holds store space s X Y ∧
        ¬ statesOf game store attitude k (movesAfter k) s X Y) ∧
      preimageOf game store attitude (statesOf game store attitude k (movesAfter k)) s X Y

/-- The states found after a number of iterations. -/
def statesAfter (k : Nat) : MoveSet :=
  statesOf game store attitude k (movesAfter game store attitude goal space k)

/-- The search ends with the next iteration: it finds the initial state, or changes nothing. -/
def Halts (k : Nat) : Prop :=
  statesAfter game store attitude goal space (k + 1) game.arena.initial (fun _ => false)
      (fun _ => false) ∨
    ∀ a : Valuation, statesAfter game store attitude goal space (k + 1) (game.arena.stateOf a) a a ↔
      statesAfter game store attitude goal space k (game.arena.stateOf a) a a

variable {game store attitude goal space} {W M : MoveSet} {s : List Bool} {X Y : Valuation}

theorem reads_next (hW : game.arena.Reads W) :
    game.arena.Reads fun s X Y => W (game.arena.successor store s X Y) X Y := by
  intro s X X' Y Y' hX hY
  dsimp only
  rw [Automaton.successor_congr hX hY]
  exact hW _ X X' Y Y' hX hY

theorem reads_preimageOf (hW : game.arena.Reads W) :
    game.arena.Reads (preimageOf game store attitude W) := by
  intro s X X' Y Y' hX hY
  have hnext : game.arena.Reads fun s X Y => W (game.arena.successor store s X Y) X Y :=
    reads_next hW
  unfold preimageOf
  split
  · exact forall_congr' fun X => imp_congr (Automaton.holds_congr (fun _ _ => rfl) hY)
      (hnext s X X Y Y' (fun _ _ => rfl) hY)
  · exact forall_congr' fun Y => hnext s X X' Y Y hX fun _ _ => rfl
  · exact hnext s X X' Y Y' hX hY
  · exact exists_congr fun X => and_congr (Automaton.holds_congr (fun _ _ => rfl) hY)
      (hnext s X X Y Y' (fun _ _ => rfl) hY)
  · exact exists_congr fun Y => hnext s X X' Y Y hX fun _ _ => rfl

theorem reads_projectionOf (hM : game.arena.Reads M) :
    game.arena.Reads (projectionOf game store attitude M) := by
  intro s X X' Y Y' hX hY
  unfold projectionOf
  split
  · exact exists_congr fun Y => hM s X X' Y Y hX fun _ _ => rfl
  · rfl
  · refine forall_congr' fun X => imp_congr (Automaton.holds_congr (fun _ _ => rfl) hY) ?_
    rfl
  · exact exists_congr fun X => and_congr (Automaton.holds_congr (fun _ _ => rfl) hY)
      (hM s X X Y Y' (fun _ _ => rfl) hY)
  · rfl

theorem reads_statesOf (hM : game.arena.Reads M) (k : Nat) :
    game.arena.Reads (statesOf game store attitude k M) := by
  cases k with
  | zero => exact fun _ _ _ _ _ _ _ => Iff.rfl
  | succ k => exact reads_projectionOf hM

theorem reads_movesAfter (k : Nat) :
    game.arena.Reads (movesAfter game store attitude goal space k) := by
  induction k with
  | zero =>
    intro s X X' Y Y' hX hY
    unfold movesAfter
    rw [Automaton.holds_congr hX hY, Automaton.holds_congr hX hY]
  | succ k ih =>
    intro s X X' Y Y' hX hY
    have hstates : game.arena.Reads (statesOf game store attitude k _) := reads_statesOf ih k
    unfold movesAfter
    rw [ih s X X' Y Y' hX hY, Automaton.holds_congr hX hY, hstates s X X' Y Y' hX hY,
      reads_preimageOf hstates s X X' Y Y' hX hY]

theorem reads_statesAfter (k : Nat) :
    game.arena.Reads (statesAfter game store attitude goal space k) :=
  reads_statesOf (reads_movesAfter k) k

/-- All moves found are safe. -/
theorem holds_space_of_movesAfter {k : Nat}
    (h : movesAfter game store attitude goal space k s X Y) :
    game.arena.Holds store space s X Y := by
  induction k with
  | zero => exact h.1
  | succ k ih => exact h.elim ih fun hnew => hnew.1.1

end Relations

section Steps

variable {game : Game} {origin store : Store} {attitude : Attitude} {goal space states moves : Edge}
  {W M R : MoveSet}

theorem describes_of_over {vars : List Var} {e : Edge} (he : origin.Over vars e)
    (hsub : vars ⊆ game.arena.vars) (hr : origin.Reduced) (hle : origin ≤ store) :
    Describes game store e (game.arena.Holds origin e) :=
  (he.has.denotes.congr fun a => (Automaton.holds_stateOf (he.subset hsub) a).symm).mono hr hle

/-- A joint move satisfies the diagram exactly if it has the property. -/
theorem Describes.holds_iff (he : Describes game store states W) (hW : game.arena.Reads W)
    (harena : game.arena.Closed origin) {s : List Bool} {X Y : Valuation}
    (hlength : s.length = game.arena.stateVars.length) :
    game.arena.Holds store states s X Y ↔ W s X Y := by
  rw [Automaton.Holds, he.eval_iff, harena.stateOf_joint hlength]
  exact hW _ _ _ _ _ (fun _ hv => harena.joint_of_mem_inputs hv)
    fun _ hv => harena.joint_of_mem_outputs hv

variable (hs : store.Sound) (hr : origin.Reduced) (hle : origin ≤ store)
  (h : game.Readable origin goal space)

include hr hle h in
theorem Readable.describes_space : Describes game store space (game.arena.Holds origin space) :=
  describes_of_over h.space_over (List.Subset.refl _) hr hle

include hr hle h in
theorem Readable.describes_goal : Describes game store goal (game.arena.Holds origin goal) :=
  describes_of_over h.goal_over (List.Subset.refl _) hr hle

include hr hle h in
theorem Readable.describes_constraint :
    Describes game store game.constraint (game.arena.Holds origin game.constraint) :=
  describes_of_over h.constraint_over (List.Subset.refl _) hr hle

include hs hr hle in
theorem ensures_nextStep (harena : game.arena.Closed origin)
    (hstates : Describes game store states W) (hW : game.arena.Reads W) :
    Ensures (game.nextStep states) store fun e later =>
      Describes game later e fun s X Y => W (game.arena.successor origin s X Y) X Y := by
  have himages := harena.hasImages_nextValues
  refine (ensures_substitute hs (himages.mono hle) hstates.has).weaken
    fun e later _ _ he => he.congr fun a => ?_
  rw [himages.replaced_eq hr hle, hstates.eval_iff, harena.stateOf_replaced]
  -- only state variables have next values
  have hkept : ∀ v, v ∉ game.arena.stateVars →
      replaced origin game.arena.nextValues a v = a v := by
    intro v hv
    rw [replaced, harena.getElem?_nextValues_of_not_mem hv]
  refine hW _ _ _ _ _ (fun v hv => hkept v fun hmem => ?_) fun v hv => hkept v fun hmem => ?_
  · exact harena.not_mem_inputs hmem hv
  · exact harena.not_mem_outputs hmem hv

include hs hr hle h in
theorem ensures_forallInputs (hmoves : Describes game store moves R) (hR : game.arena.Reads R) :
    Ensures (game.forallInputs moves) store fun e later =>
      Describes game later e fun s _ Y =>
        ∀ X, game.arena.Holds origin game.constraint s X Y → R s X Y := by
  unfold forallInputs
  apply (ensures_imply hs (h.describes_constraint hr hle) hmoves).bind
  intro f later hs' _ hf
  refine (ensures_quantifyForall hs' hf _).weaken fun e last _ _ he => he.congr fun a => ?_
  refine h.arena.forall_inputs (R := fun s X Y =>
    game.arena.Holds origin game.constraint s X Y → R s X Y) ?_ a
  exact fun s X X' Y Y' hX hY => imp_congr (Automaton.holds_congr hX hY) (hR s X X' Y Y' hX hY)

include hs hr hle h in
theorem ensures_existsInputs (hmoves : Describes game store moves R) (hR : game.arena.Reads R) :
    Ensures (game.existsInputs moves) store fun e later =>
      Describes game later e fun s _ Y =>
        ∃ X, game.arena.Holds origin game.constraint s X Y ∧ R s X Y := by
  unfold existsInputs
  apply (ensures_conj hs (h.describes_constraint hr hle) hmoves).bind
  intro f later hs' _ hf
  refine (ensures_quantifyExists hs' hf _).weaken fun e last _ _ he => he.congr fun a => ?_
  refine h.arena.exists_inputs (R := fun s X Y =>
    game.arena.Holds origin game.constraint s X Y ∧ R s X Y) ?_ a
  exact fun s X X' Y Y' hX hY => and_congr (Automaton.holds_congr hX hY) (hR s X X' Y Y' hX hY)

theorem reads_existsInputs (hR : game.arena.Reads R) :
    game.arena.Reads fun s _ Y =>
      ∃ X, game.arena.Holds origin game.constraint s X Y ∧ R s X Y :=
  fun s _ _ Y Y' _ hY => exists_congr fun X =>
    and_congr (Automaton.holds_congr (fun _ _ => rfl) hY) (hR s X X Y Y' (fun _ _ => rfl) hY)

include hs h in
theorem ensures_existsOutputs (hmoves : Describes game store moves R) (hR : game.arena.Reads R) :
    Ensures (quantifyExists moves game.arena.outputs) store fun e later =>
      Describes game later e fun s X _ => ∃ Y, R s X Y :=
  (ensures_quantifyExists hs hmoves _).weaken fun _ _ _ _ he =>
    he.congr fun a => h.arena.exists_outputs hR a

include hs h in
theorem ensures_forallOutputs (hmoves : Describes game store moves R) (hR : game.arena.Reads R) :
    Ensures (quantifyForall moves game.arena.outputs) store fun e later =>
      Describes game later e fun s X _ => ∀ Y, R s X Y :=
  (ensures_quantifyForall hs hmoves _).weaken fun _ _ _ _ he =>
    he.congr fun a => h.arena.forall_outputs hR a

include hs hr hle h in
theorem ensures_preimage (hstates : Describes game store states W) (hW : game.arena.Reads W) :
    Ensures (game.preimage attitude states) store fun e later =>
      Describes game later e (preimageOf game origin attitude W) := by
  have hnext : game.arena.Reads fun s X Y => W (game.arena.successor origin s X Y) X Y :=
    reads_next hW
  unfold preimage
  apply (ensures_nextStep hs hr hle h.arena hstates hW).bind
  intro e later hs' hle' he
  have hle := hle.trans hle'
  unfold preimageOf
  cases attitude <;> cases game.starting <;> cases game.protagonist <;> dsimp only
  · exact ensures_forallInputs hs' hr hle h he hnext
  · exact ensures_pure hs' he
  · exact ensures_pure hs' he
  · exact ensures_forallOutputs hs' h he hnext
  · exact ensures_existsInputs hs' hr hle h he hnext
  · exact ensures_existsOutputs hs' h he hnext
  · exact ensures_existsInputs hs' hr hle h he hnext
  · exact ensures_existsOutputs hs' h he hnext

include hs hr hle h in
theorem ensures_project (hmoves : Describes game store moves M) (hM : game.arena.Reads M) :
    Ensures (game.project attitude moves) store fun e later =>
      Describes game later e (projectionOf game origin attitude M) := by
  have hinputs : game.arena.Reads fun s _ Y =>
      ∃ X, game.arena.Holds origin game.constraint s X Y ∧ M s X Y := reads_existsInputs hM
  have hcooperative : Ensures (do quantifyExists (← game.existsInputs moves) game.arena.outputs)
      store fun e later => Describes game later e fun s _ _ =>
        ∃ Y X, game.arena.Holds origin game.constraint s X Y ∧ M s X Y := by
    apply (ensures_existsInputs hs hr hle h hmoves hM).bind
    exact fun f later hs' _ hf => ensures_existsOutputs hs' h hf hinputs
  unfold project projectionOf
  cases attitude <;> cases game.starting <;> cases game.protagonist <;> dsimp only
  · exact ensures_existsOutputs hs h hmoves hM
  · apply (ensures_existsInputs hs hr hle h hmoves hM).bind
    exact fun f later hs' _ hf => ensures_forallOutputs hs' h hf hinputs
  · apply (ensures_existsOutputs hs h hmoves hM).bind
    intro f later hs' hle' hf
    exact ensures_forallInputs hs' hr (hle.trans hle') h hf fun s X X' _ _ hX _ =>
      exists_congr fun Y => hM s X X' Y Y hX fun _ _ => rfl
  · exact ensures_existsInputs hs hr hle h hmoves hM
  all_goals exact hcooperative

end Steps

section Loop

variable {game : Game} {origin store later : Store} {attitude : Attitude}
  {goal space states moves : Edge} {layers : List Edge}

/-- The diagrams of a search after as many iterations as there are layers. The layers are given
latest first. -/
structure Searched (origin store : Store) (game : Game) (attitude : Attitude)
    (goal space moves states : Edge) (layers : List Edge) : Prop where
  moves : Describes game store moves (movesAfter game origin attitude goal space layers.length)
  states : Describes game store states (statesAfter game origin attitude goal space layers.length)
  layers : ∀ (i : Nat) (e : Edge), layers.reverse[i]? = some e →
    Describes game store e (statesAfter game origin attitude goal space (i + 1))

theorem Searched.mono (h : Searched origin store game attitude goal space moves states layers)
    (hs : store.Reduced) (hle : store ≤ later) :
    Searched origin later game attitude goal space moves states layers :=
  ⟨h.moves.mono hs hle, h.states.mono hs hle, fun i e hi => (h.layers i e hi).mono hs hle⟩

/-- The answer of a search. It took one iteration for each layer, and ended with the first one that
ends a search. -/
structure Answered (origin later : Store) (game : Game) (attitude : Attitude) (goal space : Edge)
    (solution : Solution) : Prop where
  length : solution.layers.length = solution.iterations
  iterations_le : solution.iterations ≤ game.iterationBound
  layers : ∀ (i : Nat) (e : Edge), solution.layers[i]? = some e →
    Describes game later e (statesAfter game origin attitude goal space (i + 1))
  winning : solution.layers.getLast? = some solution.winningStates
  states : Describes game later solution.winningStates
    (statesAfter game origin attitude goal space solution.iterations)
  moves : Describes game later solution.winningMoves
    (movesAfter game origin attitude goal space solution.iterations)
  realizable : solution.realizable = true ↔
    statesAfter game origin attitude goal space solution.iterations game.arena.initial
      (fun _ => false) (fun _ => false)
  ends : ∃ k, solution.iterations = k + 1 ∧ Halts game origin attitude goal space k ∧
    ∀ i < k, ¬ Halts game origin attitude goal space i
  arena : solution.strategy.arena = game.arena
  protagonist : solution.strategy.protagonist = game.protagonist
  chooses : Chooses later game.protagonistVars ∅ solution.strategy.functions fun a =>
    movesAfter game origin attitude goal space solution.iterations (game.arena.stateOf a) a a

theorem Answered.mono {last : Store} {solution : Solution}
    (h : Answered origin later game attitude goal space solution) (hr : later.Reduced)
    (hle : later ≤ last) : Answered origin last game attitude goal space solution :=
  { h with
    layers := fun i e hi => (h.layers i e hi).mono hr hle
    states := h.states.mono hr hle
    moves := h.moves.mono hr hle
    chooses := h.chooses.mono hr hle }

variable (hs : store.Sound) (hr : origin.Reduced) (h : game.Readable origin goal space)

include hs hr h in
theorem ensures_iterate (hle : origin ≤ store)
    (hp : Searched origin store game attitude goal space moves states layers) :
    Ensures (game.iterate attitude space moves states) store fun answer later =>
      Searched origin later game attitude goal space answer.1 answer.2 (answer.2 :: layers) := by
  unfold iterate
  apply (ensures_preimage hs hr hle h hp.states (reads_statesAfter _)).bind
  intro leading later₁ hs₁ hle₁ hleading
  have hle₁' := hle.trans hle₁
  apply (ensures_conj hs₁ (h.describes_space hr hle₁')
    ((hp.states.mono hs.toReduced hle₁).neg hs₁.toReduced)).bind
  intro admissible later₂ hs₂ hle₂ hadmissible
  apply (ensures_conj hs₂ hadmissible (hleading.mono hs₁.toReduced hle₂)).bind
  intro fresh later₃ hs₃ hle₃ hfresh
  have hle₁₃ := hle₁.trans (hle₂.trans hle₃)
  apply (ensures_disj hs₃ (hp.moves.mono hs.toReduced hle₁₃) hfresh).bind
  intro moves' later₄ hs₄ hle₄ hmoves
  have hmoves : Describes game later₄ moves'
      (movesAfter game origin attitude goal space (layers.length + 1)) := hmoves
  have hle₄' := hle.trans (hle₁₃.trans hle₄)
  apply (ensures_project hs₄ hr hle₄' h hmoves (reads_movesAfter _)).bind
  intro states' last hs' hle' hstates
  have hstates : Describes game last states'
      (statesAfter game origin attitude goal space (layers.length + 1)) := hstates
  refine ensures_pure hs' ⟨hmoves.mono hs₄.toReduced hle', hstates, fun i e hi => ?_⟩
  rw [List.reverse_cons] at hi
  by_cases hlt : i < layers.reverse.length
  · rw [List.getElem?_append_left hlt] at hi
    exact (hp.layers i e hi).mono hs.toReduced (hle₁₃.trans (hle₄.trans hle'))
  · rw [List.getElem?_append_right (Nat.not_lt.1 hlt)] at hi
    obtain ⟨hi0, rfl⟩ : i - layers.reverse.length = 0 ∧ states' = e := by
      simpa [List.getElem?_singleton] using hi
    have : i = layers.length := by
      rw [List.length_reverse] at hlt hi0
      omega
    exact this ▸ hstates

/-- A state satisfies a diagram of states exactly if it has the property, read with no move. -/
theorem Describes.satisfies_iff {W : MoveSet} (harena : game.arena.Closed origin)
    (hstates : Describes game store states W) (hW : game.arena.Reads W) {s : List Bool}
    (hs : s.length = game.arena.stateVars.length) :
    game.arena.satisfies store states s = true ↔ W s (fun _ => false) (fun _ => false) := by
  unfold Automaton.satisfies
  rw [hstates.eval_iff]
  have hstate : game.arena.stateOf (game.arena.valuation s fun _ => false) = s :=
    Valuation.map_assign _ harena.stateVars_nodup hs
  rw [hstate]
  have hfalse : ∀ v, v ∉ game.arena.stateVars →
      game.arena.valuation s (fun _ => false) v = false :=
    fun v hv => Valuation.assign_of_not_mem hv _ _
  refine hW _ _ _ _ _ (fun v hv => hfalse v fun hmem => ?_) fun v hv => hfalse v fun hmem => ?_
  · exact harena.not_mem_inputs hmem hv
  · exact harena.not_mem_outputs hmem hv

theorem includesInitial_iff {W : MoveSet} (harena : game.arena.Closed origin)
    (hstates : Describes game store states W) (hW : game.arena.Reads W) :
    game.includesInitial store states = true ↔
      W game.arena.initial (fun _ => false) (fun _ => false) :=
  hstates.satisfies_iff harena hW harena.initial_length

/-- The initial state is among the winning states exactly if the game is realizable. -/
theorem Answered.satisfies_initial_iff {solution : Solution} (harena : game.arena.Closed origin)
    (h : Answered origin later game attitude goal space solution) :
    game.arena.satisfies later solution.winningStates game.arena.initial = true ↔
      solution.realizable = true :=
  (includesInitial_iff harena h.states (reads_statesAfter _)).trans h.realizable.symm

/-- Two diagrams of states are equal exactly if they stand for the same states. -/
theorem states_eq_iff (hs : store.Reduced) {W V : MoveSet} {states' : Edge}
    (hold : Describes game store states W) (hnew : Describes game store states' V) :
    states' = states ↔
      ∀ a, V (game.arena.stateOf a) a a ↔ W (game.arena.stateOf a) a a := by
  constructor
  · rintro rfl a
    exact (hnew.eval_iff a).symm.trans (hold.eval_iff a)
  · exact fun hsame => hnew.eq_of_iff hold hs hsame

theorem Readable.protagonistVars_nodup (h : game.Readable origin goal space) :
    game.protagonistVars.Nodup := by
  have hio := (List.nodup_append.1 h.arena.nodup).2.1
  unfold protagonistVars Player.vars
  split
  · exact (List.nodup_append.1 hio).2.1
  · exact (List.nodup_append.1 hio).1

/-- What is known when the search ends is its answer. -/
theorem Searched.answered {realizable : Bool} {functions : Substitution}
    (hp : Searched origin store game attitude goal space moves states (states :: layers))
    (hbound : layers.length < game.iterationBound)
    (hinitial : realizable = true ↔ statesAfter game origin attitude goal space (layers.length + 1)
      game.arena.initial (fun _ => false) (fun _ => false))
    (hends : Halts game origin attitude goal space layers.length)
    (hnot : ∀ i < layers.length, ¬ Halts game origin attitude goal space i)
    (hfunctions : Chooses store game.protagonistVars ∅ functions fun a =>
      movesAfter game origin attitude goal space (layers.length + 1) (game.arena.stateOf a) a a) :
    Answered origin store game attitude goal space
      { realizable
        winningStates := states
        winningMoves := moves
        strategy := ⟨game.arena, functions, game.starting, game.protagonist⟩
        iterations := (states :: layers).length
        layers := (states :: layers).reverse } where
  length := List.length_reverse
  iterations_le := hbound
  layers := hp.layers
  winning := by simp
  states := hp.states
  moves := hp.moves
  realizable := hinitial
  ends := ⟨layers.length, rfl, hends, hnot⟩
  arena := rfl
  protagonist := rfl
  chooses := hfunctions

/-- Why a search gives no answer: there is no room left, a variable of the protagonist is zero, or
all its iterations went by without an end. -/
inductive GivesUp (origin later : Store) (game : Game) (attitude : Attitude) (goal space : Edge)
    (bound : Nat) : Failure → Prop
  | full (hfull : Edge.positions ≤ later.nodeCount) :
      GivesUp origin later game attitude goal space bound (.breach .storeFull)
  | zero (hzero : (0 : Var) ∈ game.protagonistVars) :
      GivesUp origin later game attitude goal space bound (.breach .zeroVariable)
  | diverged {moves states : Edge} {layers : List Edge}
      (hsearched : Searched origin later game attitude goal space moves states layers)
      (hlength : layers.length = bound)
      (hnot : ∀ i < bound, ¬ Halts game origin attitude goal space i) :
      GivesUp origin later game attitude goal space bound (.refused (.fixpointDiverged bound))

theorem givesUp_of_isFull {bound : Nat} {failure : Failure} (h : IsFull failure later) :
    GivesUp origin later game attitude goal space bound failure := by
  obtain ⟨rfl, hfull⟩ := h
  exact .full hfull

include hs hr h in
/-- The induction is on the iterations that remain. -/
theorem concludes_solveFrom (remaining : Nat) (hle : origin ≤ store)
    (hp : Searched origin store game attitude goal space moves states layers)
    (hlength : layers.length + remaining = game.iterationBound)
    (hnot : ∀ i < layers.length, ¬ Halts game origin attitude goal space i) :
    Concludes Store.Sound (game.solveFrom attitude space remaining moves states layers) store
      (fun solution later => Answered origin later game attitude goal space solution)
      fun failure later =>
        GivesUp origin later game attitude goal space game.iterationBound failure := by
  have hfull : ∀ failure later, IsFull failure later →
      GivesUp origin later game attitude goal space game.iterationBound failure :=
    fun _ _ => givesUp_of_isFull
  induction remaining generalizing store moves states layers with
  | zero =>
    have hlength : layers.length = game.iterationBound := hlength
    rw [solveFrom, hlength]
    exact concludes_throw hs (.diverged hp hlength (hlength ▸ hnot))
  | succ remaining ih =>
    rw [solveFrom]
    refine ((ensures_iterate hs hr h hle hp).concludes hfull).bind
      fun ⟨moves', states'⟩ later₁ hs₁ hle₁ hp₁ => ?_
    dsimp only at hp₁ ⊢
    refine ((ensures_current hs₁).concludes hfull).bind
      fun now later₂ _ _ ⟨hnow, hlater⟩ => ?_
    subst hnow hlater
    refine concludes_note_bind hs₁ _ _ fun later₃ hs₃ hle₃ => ?_
    have hp₃ := hp₁.mono hs₁.toReduced hle₃
    have hinitial := includesInitial_iff h.arena hp₁.states (reads_statesAfter _)
    have hsame := states_eq_iff hs₁.toReduced (hp.states.mono hs.toReduced hle₁) hp₁.states
    have hends : (game.includesInitial _ states' = true ∨ states' = states) ↔
        Halts game origin attitude goal space layers.length := or_congr hinitial hsame
    split
    · next hend =>
      refine concludes_note_bind hs₃ _ _ fun later₄ hs₄ hle₄ => ?_
      have hp₄ := hp₃.mono hs₃.toReduced hle₄
      refine (concludes_extract hs₄ hp₄.moves h.protagonistVars_nodup hfull
        fun _ hzero => .zero hzero).bind
          fun functions later₅ hs₅ hle₅ hfunctions => concludes_pure hs₅ ?_
      exact (hp₄.mono hs₄.toReduced hle₅).answered (by omega) hinitial (hends.1 hend) hnot
        hfunctions
    · next hend =>
      refine ih hs₃ (hle.trans (hle₁.trans hle₃)) hp₃ (by rw [List.length_cons]; omega)
        fun i hi => ?_
      obtain hi | rfl := Nat.lt_succ_iff_lt_or_eq.1 hi
      · exact hnot i hi
      · exact mt hends.2 hend

/-- A search is answered, or there is a reason why it is not. The diagrams of the game may be those
of an earlier store. -/
theorem concludes_search_of_le (hs : store.Sound) (hr : origin.Reduced) (hle : origin ≤ store)
    (h : game.Readable origin goal space) :
    Concludes Store.Sound (game.solve attitude goal space) store
      (fun solution later => Answered origin later game attitude goal space solution)
      fun failure later =>
        GivesUp origin later game attitude goal space game.iterationBound failure := by
  have hfull : ∀ failure later, IsFull failure later →
      GivesUp origin later game attitude goal space game.iterationBound failure :=
    fun _ _ => givesUp_of_isFull
  unfold solve
  refine ((ensures_conj hs (h.describes_space hr hle) (h.describes_goal hr hle)).concludes
    hfull).bind fun moves later₁ hs₁ hle₁ hmoves => ?_
  have hmoves : Describes game later₁ moves (movesAfter game origin attitude goal space 0) := hmoves
  refine ((ensures_quantifyExists hs₁ hmoves _).concludes hfull).bind
    fun states later₂ hs₂ hle₂ hstates => ?_
  have hp : Searched origin later₂ game attitude goal space moves states [] :=
    ⟨hmoves.mono hs₁.toReduced hle₂,
      hstates.congr fun a => h.arena.exists_moves (reads_movesAfter 0) a,
      fun i e hi => by simp at hi⟩
  exact concludes_solveFrom hs₂ hr h _ (hle.trans (hle₁.trans hle₂)) hp (Nat.zero_add _)
    fun i hi => absurd hi (Nat.not_lt_zero i)

theorem concludes_search (hs : store.Sound) (h : game.Readable store goal space) :
    Concludes Store.Sound (game.solve attitude goal space) store
      (fun solution later => Answered store later game attitude goal space solution)
      fun failure later =>
        GivesUp store later game attitude goal space game.iterationBound failure :=
  concludes_search_of_le hs hs.toReduced le_rfl h

/-- The search answers as long as there is room, if there is none left when it has gone through all
its iterations without an end. -/
theorem delivers_search {room : Store → Prop} (hroom : ∀ store, room store → HasRoom store)
    (hs : store.Sound) (h : game.Readable store goal space)
    (hbound : ∀ {later : Store} {moves states : Edge} {layers : List Edge},
      Searched store later game attitude goal space moves states layers →
      layers.length = game.iterationBound →
      (∀ i < game.iterationBound, ¬ Halts game store attitude goal space i) → ¬ room later)
    (hvars : ∀ v ∈ game.protagonistVars, v ≠ 0) :
    PlanningGame.Delivers Store.Sound room (game.solve attitude goal space) store
      fun solution later => Answered store later game attitude goal space solution := by
  refine delivers_iff_concludes.2 ((concludes_search hs h).weaken
    (fun _ _ _ _ _ hanswer => hanswer) fun failure later _ hgives hlater => ?_)
  cases hgives with
  | full hfull => exact Nat.not_lt.2 hfull (hroom later hlater)
  | zero hzero => exact hvars 0 hzero rfl
  | diverged hsearched hlength hnot => exact hbound hsearched hlength hnot hlater

theorem yields_search (hs : store.Sound) (h : game.Readable store goal space) :
    Diagram.Yields (game.solve attitude goal space) store
      fun solution later => Answered store later game attitude goal space solution :=
  (concludes_search hs h).yields

end Loop

end PlanningGame.Game
