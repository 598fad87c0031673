import Mathlib
import PlanningGame.Proofs.Diagram.Support
import PlanningGame.Proofs.Game.Termination

/-!
# The layers of a search

The states found are read off the moves found, and these only get more. So each layer implies the
next, and the layers before the last one are all different. If whoever moves first is not asked to
see the other's move, then the layers depend on the state only. The search ends after as many
iterations as there are states then, and one, so that the default bound is never too small.
-/
namespace PlanningGame.Game

open Diagram

variable {game : Game} {store later : Store} {attitude : Attitude} {goal space : Edge}
  {solution : Solution} {M N W : MoveSet} {s : List Bool} {X Y : Valuation}

section Growth

/-- More moves are moves of more states. -/
theorem projectionOf_mono (hMN : ∀ X Y, M s X Y → N s X Y)
    (h : projectionOf game store attitude M s X Y) :
    projectionOf game store attitude N s X Y := by
  unfold projectionOf at h ⊢
  split at h
  · exact h.imp fun Y => hMN X Y
  · exact fun Y => (h Y).imp fun X hX => hX.imp_right (hMN X Y)
  · exact fun X hX => (h X hX).imp fun Y => hMN X Y
  · exact h.imp fun X hX => hX.imp_right (hMN X Y)
  · exact h.imp fun Y hY => hY.imp fun X hX => hX.imp_right (hMN X Y)

/-- From the first iteration on states that were found are kept. -/
theorem statesAfter_mono {j k : Nat} (hj : 0 < j) (hjk : j ≤ k)
    (h : statesAfter game store attitude goal space j s X Y) :
    statesAfter game store attitude goal space k s X Y := by
  induction k, hjk using Nat.le_induction with
  | base => exact h
  | succ k hjk ih =>
    obtain ⟨k, rfl⟩ := Nat.exists_eq_add_of_lt (hj.trans_le hjk)
    exact projectionOf_mono (fun _ _ => .inl) ih

/-- Each layer implies the next. -/
theorem Answered.eval_next_layer
    (hanswer : Answered store later game attitude goal space solution) {i : Nat} {e f : Edge}
    (he : solution.layers[i]? = some e) (hf : solution.layers[i + 1]? = some f) {a : Valuation}
    (heval : later.eval e a = true) : later.eval f a = true := by
  rw [(hanswer.layers i e he).eval_iff] at heval
  rw [(hanswer.layers (i + 1) f hf).eval_iff]
  exact statesAfter_mono (Nat.succ_pos i) (Nat.le_succ _) heval

/-- Diagrams of the states found are all different until the search ends. -/
theorem nodup_of_describes {edges : List Edge} (hedges : ∀ (i : Nat) (e : Edge), edges[i]? = some e →
      Describes game later e (statesAfter game store attitude goal space (i + 1)))
    (hnot : ∀ i < edges.length, ¬ Halts game store attitude goal space i) : edges.Nodup := by
  rw [List.nodup_iff_getElem?_ne_getElem?]
  intro i j hij hj heq
  have he : edges[j]? = some edges[j] := List.getElem?_eq_getElem hj
  have hearly := hedges i _ (heq.trans he)
  have hlate := hedges j _ he
  -- nothing was new in between
  refine hnot (i + 1) (by omega) (.inr fun a => ⟨fun hnew => ?_, ?_⟩)
  · refine (hearly.eval_iff a).1 ((hlate.eval_iff a).2 ?_)
    exact statesAfter_mono (Nat.succ_pos (i + 1)) (by omega) hnew
  · exact statesAfter_mono (Nat.succ_pos i) (Nat.le_succ _)

/-- The layers before the last one are all different. -/
theorem Answered.nodup_dropLast_layers
    (hanswer : Answered store later game attitude goal space solution) :
    solution.layers.dropLast.Nodup := by
  obtain ⟨k, hk, -, hnot⟩ := hanswer.ends
  have hlength : solution.layers.dropLast.length = k := by
    rw [List.length_dropLast, hanswer.length, hk, Nat.add_sub_cancel]
  refine nodup_of_describes (fun i e he => hanswer.layers i e ?_) (hlength ▸ hnot)
  rw [List.getElem?_dropLast] at he
  split at he
  · exact he
  · exact absurd he (by simp)

end Growth

section Causality

/-- A game in which whoever moves first is not asked to see the other's move: a protagonist who
moves first has a goal and a space that do not see the opponent's move, and an environment that
moves first is constrained on its inputs alone. -/
structure Causal (store : Store) (game : Game) (goal space : Edge) : Prop where
  goal_own : game.starting = game.protagonist →
    store.Over (game.arena.stateVars ++ game.protagonistVars) goal
  space_own : game.starting = game.protagonist →
    store.Over (game.arena.stateVars ++ game.protagonistVars) space
  constraint_early : game.starting = .environment →
    store.Over (game.arena.stateVars ++ game.arena.inputs) game.constraint

theorem Closed.causal (h : game.Closed store goal space) : game.Causal store goal space :=
  ⟨fun _ => h.goal_over, fun _ => h.space_over, h.constraint_early⟩

/-- A property of states. -/
def OfStates (game : Game) (W : MoveSet) : Prop :=
  ∀ s : List Bool, s.length = game.arena.stateVars.length → ∀ X X' Y Y', W s X Y ↔ W s X' Y'

/-- The joint moves are the same, but for the answer of an adversary. -/
def Alike (game : Game) (attitude : Attitude) (X X' Y Y' : Valuation) : Prop :=
  match attitude, game.starting, game.protagonist with
  | .adversarial, .agent, .agent => Y = Y'
  | .adversarial, .environment, .environment => X = X'
  | _, _, _ => X = X' ∧ Y = Y'

/-- The moves do not depend on the answer of an adversary. -/
def Unanswered (game : Game) (attitude : Attitude) (M : MoveSet) : Prop :=
  ∀ s : List Bool, s.length = game.arena.stateVars.length → ∀ X X' Y Y',
    game.Alike attitude X X' Y Y' → (M s X Y ↔ M s X' Y')

variable (harena : game.arena.Closed store)
  (h : attitude = .adversarial → game.Causal store goal space)

include harena in
theorem unanswered_holds {e : Edge} (he : attitude = .adversarial →
      game.starting = game.protagonist →
        store.Over (game.arena.stateVars ++ game.protagonistVars) e) :
    Unanswered game attitude (game.arena.Holds store e) := by
  intro s hs X X' Y Y' halike
  unfold Alike at halike
  split at halike
  · next hstart hprot =>
    have he := he rfl (hstart.trans hprot.symm)
    simp only [protagonistVars, Player.vars, hprot] at he
    exact halike ▸ Automaton.holds_of_over_outputs harena he hs
  · next hstart hprot =>
    have he := he rfl (hstart.trans hprot.symm)
    simp only [protagonistVars, Player.vars, hprot] at he
    exact halike ▸ Automaton.holds_of_over_inputs harena he hs
  · rw [halike.1, halike.2]

theorem unanswered_preimageOf : Unanswered game attitude (preimageOf game store attitude W) := by
  intro s _ X X' Y Y' halike
  unfold Alike at halike
  unfold preimageOf
  split at halike
  · next hstart hprot => simp only [hstart, hprot, halike]
  · next hstart hprot => simp only [hstart, hprot, halike]
  · rw [halike.1, halike.2]

include harena h in
/-- The states of moves that are not answered are known before anyone moves. -/
theorem ofStates_statesOf (hM : Unanswered game attitude M) (k : Nat) :
    OfStates game (statesOf game store attitude k M) := by
  cases k with
  | zero => exact fun _ _ _ _ _ _ => Iff.rfl
  | succ k =>
    intro s hs X X' Y Y'
    have hconstraint : attitude = .adversarial → game.starting = .environment → ∀ X,
        (game.arena.Holds store game.constraint s X Y ↔
          game.arena.Holds store game.constraint s X Y') := fun hatt hstart X =>
      Automaton.holds_of_over_inputs harena ((h hatt).constraint_early hstart) hs
    have hM := hM s hs
    unfold Alike at hM
    unfold statesOf projectionOf
    cases attitude <;> cases hstart : game.starting <;> cases hprot : game.protagonist <;>
      simp only [hstart, hprot, forall_const] at hM hconstraint ⊢
    · exact exists_congr fun Y => hM X X' Y Y rfl
    · exact forall_congr' fun X => imp_congr_left (hconstraint X)
    · exact exists_congr fun X => and_congr (hconstraint X) (hM X X Y Y' rfl)

include harena h in
theorem unanswered_movesAfter (k : Nat) :
    Unanswered game attitude (movesAfter game store attitude goal space k) := by
  have hspace : Unanswered game attitude (game.arena.Holds store space) :=
    unanswered_holds harena fun hatt => (h hatt).space_own
  induction k with
  | zero =>
    have hgoal : Unanswered game attitude (game.arena.Holds store goal) :=
      unanswered_holds harena fun hatt => (h hatt).goal_own
    intro s hs X X' Y Y' halike
    exact and_congr (hspace s hs X X' Y Y' halike) (hgoal s hs X X' Y Y' halike)
  | succ k ih =>
    have hstates := ofStates_statesOf harena h ih k
    intro s hs X X' Y Y' halike
    refine or_congr (ih s hs X X' Y Y' halike) (and_congr (and_congr ?_ ?_) ?_)
    · exact hspace s hs X X' Y Y' halike
    · exact not_congr (hstates s hs X X' Y Y')
    · exact unanswered_preimageOf s hs X X' Y Y' halike

include harena h in
theorem ofStates_statesAfter (k : Nat) :
    OfStates game (statesAfter game store attitude goal space k) :=
  ofStates_statesOf harena h (unanswered_movesAfter harena h k) k

/-- A diagram of states has state variables only. -/
theorem OfStates.support_subset {e : Edge} (hW : OfStates game W) (hr : store.Reduced)
    (he : Describes game store e W) : store.support e ⊆ game.arena.stateVars := by
  intro v hv
  by_contra hstate
  refine hr.not_mem_support he.has (fun a value => ?_) hv
  have hkept : game.arena.stateOf (a.update v value) = game.arena.stateOf a :=
    List.map_congr_left fun w hw => Valuation.update_of_ne a (ne_of_mem_of_not_mem hw hstate) value
  rw [Bool.eq_iff_iff, he.eval_iff, he.eval_iff, hkept]
  exact hW _ (game.arena.stateOf_length a) _ _ _ _

include harena h in
/-- The initial state is not in a chain of layers that goes on, so the chain is shorter than there
are states. The first step of the search is no part of it. -/
theorem exists_halts :
    ∃ k ≤ 2 ^ game.arena.stateVars.length, Halts game store attitude goal space k := by
  have hstates := fun k => ofStates_statesAfter harena h k
  let initial : List.Vector Bool game.arena.stateVars.length :=
    ⟨game.arena.initial, harena.initial_length⟩
  let others (k : Nat) : Set (List.Vector Bool game.arena.stateVars.length) :=
    {t | statesAfter game store attitude goal space (k + 1) t.val (fun _ => false)
      (fun _ => false) ∧ t ≠ initial}
  have hmono : Monotone others := fun j k hjk t ht =>
    ⟨statesAfter_mono (Nat.succ_pos j) (by omega) ht.1, ht.2⟩
  obtain ⟨k, hk, hstable⟩ := exists_subset_of_monotone hmono (T := Finset.univ.erase initial)
    fun k t ht => by simpa using ht.2
  rw [Finset.card_erase_of_mem (Finset.mem_univ _), Finset.card_univ, card_vector,
    Fintype.card_bool] at hk
  have hpos := Nat.two_pow_pos game.arena.stateVars.length
  refine ⟨k + 1, by omega, ?_⟩
  by_cases hfound : statesAfter game store attitude goal space (k + 2) game.arena.initial
      (fun _ => false) (fun _ => false)
  · exact .inl hfound
  refine .inr fun a => ⟨fun hnew => ?_, statesAfter_mono (Nat.succ_pos k) (Nat.le_succ _)⟩
  have hlength := game.arena.stateOf_length a
  have hnew := (hstates (k + 2) _ hlength a (fun _ => false) a (fun _ => false)).1 hnew
  have hother : (⟨_, hlength⟩ : List.Vector Bool game.arena.stateVars.length) ≠ initial := by
    intro heq
    have hinitial : game.arena.stateOf a = game.arena.initial := congrArg Subtype.val heq
    exact hfound (hinitial ▸ hnew)
  exact (hstates (k + 1) _ hlength _ _ _ _).1 (hstable (a := ⟨_, hlength⟩) ⟨hnew, hother⟩).1

include harena h in
/-- With the default bound the search ends before it has gone through all its iterations: the bound
is large enough for all states, or for all edges that there are. -/
theorem Searched.absurd_of_default {moves states : Edge} {layers : List Edge}
    (hsearched : Searched store later game attitude goal space moves states layers)
    (hlength : layers.length = game.iterationBound)
    (hnot : ∀ i < game.iterationBound, ¬ Halts game store attitude goal space i)
    (hdefault : game.maxIterations = none) : False := by
  have hbound : game.iterationBound =
      min (2 ^ game.arena.stateVars.length + 1) lastIteration := by
    rw [iterationBound, hdefault, Option.getD_none, harena.initial_length]
    rfl
  obtain hle | hle := le_total (2 ^ game.arena.stateVars.length + 1) lastIteration
  · obtain ⟨k, hk, hhalts⟩ := exists_halts harena h
    rw [min_eq_left hle] at hbound
    exact hnot k (by omega) hhalts
  · rw [min_eq_right hle] at hbound
    rw [← hlength] at hnot
    have hnodup : layers.reverse.Nodup :=
      nodup_of_describes hsearched.layers (by rwa [List.length_reverse])
    have hcount := length_le_two_mul_positions hnodup
    rw [List.length_reverse, hlength, hbound] at hcount
    exact absurd hcount (by decide)

include harena h in
/-- With the default bound and variables that are not zero, a search that gives up has no room. -/
theorem GivesUp.isFull {failure : Failure} (hdefault : game.maxIterations = none)
    (hvars : ∀ v ∈ game.protagonistVars, v ≠ 0)
    (hgives : GivesUp store later game attitude goal space game.iterationBound failure) :
    IsFull failure later := by
  cases hgives with
  | full hfull => exact ⟨rfl, hfull⟩
  | zero hzero => exact absurd rfl (hvars 0 hzero)
  | diverged hsearched hlength hnot =>
    exact (hsearched.absurd_of_default harena h hlength hnot hdefault).elim

end Causality

/-- The winning states and all layers have state variables only: always if the opponent helps, and
against an adversary if whoever moves first is not asked to see the other's move. -/
theorem support_layers_subset (hs : store.Sound) (h : game.Readable store goal space)
    (hcausal : attitude = .adversarial → game.Causal store goal space)
    (hrun : (game.solve attitude goal space).run.run store = (.ok solution, later)) :
    ∀ e ∈ solution.winningStates :: solution.layers, later.support e ⊆ game.arena.stateVars := by
  obtain ⟨hlater, -, hanswer⟩ := yields_search hs h solution later hrun
  have hstates := fun k => ofStates_statesAfter h.arena hcausal k
  intro e he
  rcases List.mem_cons.1 he with rfl | he
  · exact (hstates _).support_subset hlater.toReduced hanswer.states
  · obtain ⟨i, hi⟩ := List.mem_iff_getElem?.1 he
    exact (hstates _).support_subset hlater.toReduced (hanswer.layers i e hi)

/-- The layers of an agent who copies inputs. -/
theorem copyGame_support_layers_subset :
    ∃ solution later, copySession.store.Sound ∧
      copyGame.Readable copySession.store ⟨2, false, by decide⟩ .one ∧
      copyGame.Causal copySession.store ⟨2, false, by decide⟩ .one ∧
      (copyGame.solve .adversarial ⟨2, false, by decide⟩ .one).run.run copySession.store =
        (.ok solution, later) ∧
      ∀ e ∈ solution.winningStates :: solution.layers, later.support e ⊆ [1] := by
  have hok : answersWith (copyGame.solve .adversarial ⟨2, false, by decide⟩ .one)
      copySession.store (fun _ _ => true) = true := by cbv
  obtain ⟨solution, later, hrun, -⟩ := exists_run_of_answersWith hok
  exact ⟨solution, later, copySession_valid.sound, copyGame_closed.readable,
    copyGame_closed.causal, hrun, support_layers_subset copySession_valid.sound
      copyGame_closed.readable (fun _ => copyGame_closed.causal) hrun⟩

/-- An agent who moves first and wants the input to be true. What is left after its move is
quantified depends on the input. -/
theorem exists_winningStates_with_input :
    ∃ (store later : Store) (game : Game) (goal space : Edge) (solution : Solution) (v : Var),
      store.Sound ∧ game.Readable store goal space ∧ game.starting = .agent ∧
        game.protagonist = .agent ∧
        (game.solve .adversarial goal space).run.run store = (.ok solution, later) ∧
        v ∉ game.arena.stateVars ∧ v ∈ later.support solution.winningStates := by
  let game : Game := { copyGame with starting := .agent }
  have hreadable : game.Readable copySession.store ⟨3, false, by decide⟩ .one := by
    have hr := copySession_valid.sound.toReduced
    have hinput : copySession.store.Over [1, 2] ⟨3, false, by decide⟩ :=
      hr.over_of_node (copySession_valid.has _ (by decide +kernel)) (by decide +kernel)
    exact ⟨copyGame_closed.arena, hinput.subset (by decide), hr.over_one, hr.over_one⟩
  have hok : answersWith (game.solve .adversarial ⟨3, false, by decide⟩ .one) copySession.store
      (fun solution later => (later.support solution.winningStates).contains 2) = true := by cbv
  obtain ⟨solution, later, hrun, hsupport⟩ := exists_run_of_answersWith hok
  exact ⟨copySession.store, later, game, ⟨3, false, by decide⟩, .one, solution, 2,
    copySession_valid.sound, hreadable, rfl, rfl, hrun, by decide, by simpa using hsupport⟩

/-- With the default bound the search never goes through all its iterations. It takes one more than
there are states at most. Each layer implies the next, and those before the last are different. -/
theorem solve_ends (hs : store.Sound) (h : game.Readable store goal space)
    (hcausal : attitude = .adversarial → game.Causal store goal space)
    (hdefault : game.maxIterations = none) (hbits : game.arena.stateVars.length < 64) :
    (∀ count, ((game.solve attitude goal space).run.run store).1 ≠
      .error (.refused (.fixpointDiverged count))) ∧
    ∀ solution later,
      (game.solve attitude goal space).run.run store = (.ok solution, later) →
        solution.layers.length = solution.iterations ∧
        solution.iterations ≤ 2 ^ game.arena.stateVars.length + 1 ∧
        (∀ (i : Nat) (e f : Edge), solution.layers[i]? = some e →
          solution.layers[i + 1]? = some f →
            ∀ a, later.eval e a = true → later.eval f a = true) ∧
        solution.layers.dropLast.Nodup := by
  obtain ⟨j, hj, hhalts⟩ := exists_halts h.arena hcausal
  have hbound : game.iterationBound = 2 ^ game.arena.stateVars.length + 1 := by
    have hle : 2 ^ game.arena.stateVars.length ≤ 2 ^ 63 :=
      Nat.pow_le_pow_right (by omega) (by omega)
    rw [iterationBound, hdefault, Option.getD_none, h.arena.initial_length]
    refine min_eq_left ?_
    change 2 ^ _ + 1 ≤ _
    unfold lastIteration
    omega
  refine ⟨fun count herror => ?_, fun solution later hrun => ?_⟩
  · cases (concludes_search hs h).fails _ herror with
    | diverged _ _ hnot => exact hnot j (by omega) hhalts
  · obtain ⟨-, -, hanswer⟩ := yields_search hs h solution later hrun
    obtain ⟨k, hk, -, hnot⟩ := hanswer.ends
    have hkj : k ≤ j := Nat.not_lt.1 fun hlt => hnot j hlt hhalts
    exact ⟨hanswer.length, by omega, fun i e f he hf a => hanswer.eval_next_layer he hf,
      hanswer.nodup_dropLast_layers⟩

/-- One state bit leaves room for three layers at most. -/
theorem copyGame_solve_ends :
    ∃ solution later, copySession.store.Sound ∧
      copyGame.Readable copySession.store ⟨2, false, by decide⟩ .one ∧
      copyGame.Causal copySession.store ⟨2, false, by decide⟩ .one ∧
      copyGame.maxIterations = none ∧ copyGame.arena.stateVars.length < 64 ∧
      (copyGame.solve .adversarial ⟨2, false, by decide⟩ .one).run.run copySession.store =
        (.ok solution, later) ∧
      solution.layers.length = solution.iterations ∧ solution.iterations ≤ 3 ∧
      solution.layers.dropLast.Nodup := by
  have hok : answersWith (copyGame.solve .adversarial ⟨2, false, by decide⟩ .one)
      copySession.store (fun _ _ => true) = true := by cbv
  obtain ⟨solution, later, hrun, -⟩ := exists_run_of_answersWith hok
  obtain ⟨-, hends⟩ := solve_ends copySession_valid.sound copyGame_closed.readable
    (fun _ => copyGame_closed.causal) rfl (by decide)
  obtain ⟨hlength, hle, -, hnodup⟩ := hends solution later hrun
  exact ⟨solution, later, copySession_valid.sound, copyGame_closed.readable,
    copyGame_closed.causal, rfl, by decide, hrun, hlength, hle, hnodup⟩

end PlanningGame.Game
