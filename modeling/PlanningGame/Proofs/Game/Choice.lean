import Mathlib
import PlanningGame.Proofs.Game.Play

/-!
# Choices of the agent

When the agent is the protagonist and the moves found do not depend on the inputs, its functions
read the state only. So its strategy chooses the same outputs whatever the environment does, the
number that it gives is the code of these outputs, and the next state is the successor under them.
If moves were found for the state, then the foremost one is chosen, and otherwise no output is true.
-/
namespace PlanningGame

open Diagram

namespace Strategy

/-- Looking up a variable among the values of the functions. -/
theorem lookup_functions (functions : Std.TreeMap Var Edge) (value : Edge → Bool) (v : Var) :
    (functions.toList.map fun entry => (entry.1, value entry.2)).lookup v =
      functions[v]?.map value := by
  have key : ∀ entries : List (Var × Edge),
      (entries.map fun entry => (entry.1, value entry.2)).lookup v =
        (entries.lookup v).map value := by
    intro entries
    induction entries with
    | nil => rfl
    | cons entry rest ih =>
      rw [List.map_cons, List.lookup_cons, List.lookup_cons]
      cases v == entry.1 with
      | true => rfl
      | false => exact ih
  have hdistinct : functions.toList.Pairwise fun p q => p.1 ≠ q.1 :=
    Std.TreeMap.distinct_keys_toList.imp fun hne heq => hne (Std.LawfulEqOrd.compare_eq_iff_eq.2 heq)
  rw [key]
  cases hv : functions[v]? with
  | none =>
    rw [List.lookup_eq_none_iff.2 fun p hp => ?_]
    rw [bne_iff_ne]
    rintro rfl
    rw [Std.TreeMap.mem_toList_iff_getElem?_eq_some.1 hp] at hv
    exact absurd hv (by simp)
  | some e =>
    have hmem : (v, e) ∈ functions.toList := Std.TreeMap.mem_toList_iff_getElem?_eq_some.2 hv
    obtain ⟨before, after, hsplit⟩ := List.append_of_mem hmem
    refine congrArg (Option.map value) (List.lookup_eq_some_iff.2 ⟨before, after, hsplit, ?_⟩)
    rw [hsplit, List.pairwise_append] at hdistinct
    exact fun p hp => by simpa using (hdistinct.2.2 p hp _ List.mem_cons_self).symm

/-- If there is a function for each of its variables then the choice of a strategy is the code of
their values. -/
theorem choice_eq {strategy : Strategy} {store : Store} {s : List Bool}
    (hs : s.length = strategy.arena.initial.length)
    (hfunctions : ∀ v ∈ strategy.protagonist.vars strategy.arena,
      strategy.functions[v]?.isSome = true) (o : Valuation) :
    strategy.choice store s o = .ok (Binary.decode ((strategy.protagonist.vars strategy.arena).map
      (Diagram.replaced store strategy.functions (strategy.arena.valuation s o)))) := by
  unfold choice output
  rw [if_pos hs]
  dsimp only [bind, Except.bind, pure, Except.pure]
  refine congrArg (fun bits => Except.ok (Binary.decode bits)) (List.map_congr_left fun v hv => ?_)
  obtain ⟨g, hg⟩ := Option.isSome_iff_exists.1 (hfunctions v hv)
  rw [lookup_functions strategy.functions fun e => store.eval e (strategy.arena.valuation s o), hg,
    Diagram.replaced, hg]
  rfl

end Strategy

namespace Game

variable {game : Game} {origin later : Store} {attitude : Attitude} {goal space : Edge}
  {solution : Solution} {s : List Bool}

/-- The moves found do not depend on the inputs. -/
def Unseeing (game : Game) (store : Store) (attitude : Attitude) (goal space : Edge) (k : Nat) :
    Prop :=
  ∀ s : List Bool, s.length = game.arena.stateVars.length → ∀ X X' Y,
    movesAfter game store attitude goal space k s X Y ↔
      movesAfter game store attitude goal space k s X' Y

theorem Closed.unseeing_adversarial (h : game.Closed origin goal space)
    (hstart : game.starting = .agent) (hprot : game.protagonist = .agent) (k : Nat) :
    Unseeing game origin .adversarial goal space k := by
  intro s hs X X' Y
  have hopponent := h.found_opponent k hs
  simp only [hstart, hprot] at hopponent
  rw [h.movesAfter_iff k hs, h.movesAfter_iff k hs, hopponent X X' Y]

variable (hr : origin.Reduced) (hle : origin ≤ later) (hlater : later.Reduced)
  (h : game.Readable origin goal space)
  (hanswer : Answered origin later game attitude goal space solution)
  (hprot : game.protagonist = .agent)
  (hunseeing : Unseeing game origin attitude goal space solution.iterations)

omit h in
include hprot hunseeing in
/-- The moves found are blind to everything but state variables and outputs. -/
theorem Unseeing.blind {u : Var} (hstate : u ∉ game.arena.stateVars)
    (hout : u ∉ game.protagonistVars) :
    Valuation.Blind (fun a => movesAfter game origin attitude goal space solution.iterations
      (game.arena.stateOf a) a a) u := by
  have hout : u ∉ game.arena.outputs := by
    simpa only [protagonistVars, Player.vars, hprot] using hout
  intro a value
  have hne : ∀ v, v ≠ u → a.update u value v = a v := fun v hv =>
    Valuation.update_of_ne a hv value
  have hkept : game.arena.stateOf (a.update u value) = game.arena.stateOf a :=
    List.map_congr_left fun v hv => hne v (fun heq => hstate (heq ▸ hv))
  dsimp only
  rw [hkept, hunseeing _ (game.arena.stateOf_length a) (a.update u value) a]
  exact reads_movesAfter _ _ _ _ _ _ (fun _ _ => rfl) fun v hv =>
    hne v fun heq => hout (heq ▸ hv)

omit h in
include hlater hanswer hprot hunseeing in
/-- The functions of the strategy read the state only. -/
theorem Answered.function_over {v : Var} {g : Edge}
    (hg : solution.strategy.functions[v]? = some g) :
    later.Over game.arena.stateVars g := by
  have hv : v ∈ game.protagonistVars := hanswer.chooses.isSome_iff.1 (by rw [hg]; rfl)
  refine hlater.over_of_ignores (hanswer.chooses.images v g hg) fun u hu => ?_
  by_cases hout : u ∈ game.protagonistVars
  · exact hanswer.chooses.ignores u (.inl hout) v hv g hg
  · exact hanswer.chooses.ignores u (.inr (hunseeing.blind hprot hu hout)) v hv g hg

/-- Outputs of the moves found for a state that no other outputs of them outdo. Without any moves
they are false. -/
structure Preferred (game : Game) (store : Store) (attitude : Attitude) (goal space : Edge) (k : Nat)
    (s : List Bool) (Y : Valuation) : Prop where
  found : (∃ X Y, movesAfter game store attitude goal space k s X Y) →
    ∀ X, movesAfter game store attitude goal space k s X Y
  greatest : ∀ X Y', movesAfter game store attitude goal space k s X Y' →
    ¬ Y'.Outdoes Y game.arena.outputs
  idle : (∀ X Y, ¬ movesAfter game store attitude goal space k s X Y) →
    ∀ v ∈ game.arena.outputs, Y v = false

omit hr hle h in
include hanswer hprot hunseeing in
/-- What the functions give in a state is preferred there. -/
theorem Answered.preferred (harena : game.arena.Closed origin)
    (hs : s.length = game.arena.stateVars.length) (o : Valuation) :
    Preferred game origin attitude goal space solution.iterations s
      (followed later solution.strategy.functions game.protagonistVars
        (game.arena.valuation s o)) := by
  have hvars : game.protagonistVars = game.arena.outputs := by
    simp only [protagonistVars, Player.vars, hprot]
  have hchooses := hanswer.chooses
  rw [hvars] at hchooses ⊢
  have hreads : game.arena.Reads
      (movesAfter game origin attitude goal space solution.iterations) := reads_movesAfter _
  have hstate := stateOf_valuation harena hs o
  -- other outputs as a change of the given ones
  have hchange : ∀ X Y', movesAfter game origin attitude goal space solution.iterations s X Y' →
      ∃ b, (game.arena.valuation s o).VariesOn game.arena.outputs b ∧
        (∀ v ∈ game.arena.outputs, Y' v = b v) ∧
        movesAfter game origin attitude goal space solution.iterations (game.arena.stateOf b) b b := by
    intro X Y' hmove
    have hvaries := Automaton.variesOn_ite game.arena.outputs (game.arena.valuation s o) Y'
    have houtputs : ∀ v ∈ game.arena.outputs,
        Y' v = if v ∈ game.arena.outputs then Y' v else game.arena.valuation s o v :=
      fun v hv => (if_pos hv).symm
    refine ⟨_, hvaries, houtputs, ?_⟩
    rw [harena.stateOf_of_variesOn (List.subset_append_right _ _) hvaries, hstate]
    exact (hreads _ _ _ _ _ (fun _ _ => rfl) houtputs).1 ((hunseeing s hs X _ Y').1 hmove)
  have hfull := stateOf_followed harena hs later solution.strategy.functions o
  rw [hvars] at hfull
  refine ⟨fun hfound X' => ?_, fun X Y' hmove houtdoes => ?_, fun hnone => ?_⟩
  · obtain ⟨X, Y', hmove⟩ := hfound
    obtain ⟨b, hvaries, -, hb⟩ := hchange X Y' hmove
    have hchosen := hchooses.chosen _ ⟨b, hvaries, hb⟩
    rw [hfull] at hchosen
    exact (hunseeing s hs _ X' _).1 hchosen
  · obtain ⟨b, hvaries, houtputs, hb⟩ := hchange X Y' hmove
    exact hchooses.greatest _ b hvaries hb (houtdoes.congr houtputs fun _ _ => rfl)
  · refine hchooses.idle _ fun b hvaries hb => ?_
    rw [harena.stateOf_of_variesOn (List.subset_append_right _ _) hvaries, hstate] at hb
    exact hnone b b hb

include hr hle hlater h hanswer hprot hunseeing in
/-- In every state the strategy chooses the same outputs whatever the inputs are, and they are
preferred there. -/
theorem Answered.exists_choice (hs : s.length = game.arena.stateVars.length) :
    ∃ Y, (∀ o, solution.strategy.choice later s o =
        .ok (Binary.decode (game.arena.outputs.map Y))) ∧
      (∀ o, solution.strategy.next later s o = .ok (game.arena.successor origin s o Y)) ∧
      Preferred game origin attitude goal space solution.iterations s Y := by
  have hvars : game.protagonistVars = game.arena.outputs := by
    simp only [protagonistVars, Player.vars, hprot]
  have hchooses := hanswer.chooses
  let Y := followed later solution.strategy.functions game.protagonistVars
    (game.arena.valuation s fun _ => false)
  -- the functions have the same values whatever is observed
  have hvalue : ∀ o v, v ∈ game.protagonistVars →
      replaced later solution.strategy.functions (game.arena.valuation s o) v = Y v := by
    intro o v hv
    obtain ⟨g, hg⟩ := Option.isSome_iff_exists.1 (hchooses.covers v hv)
    have hover := hanswer.function_over hlater hprot hunseeing hg
    have hstate := fun o => stateOf_valuation h.arena hs o
    simp only [Y, followed, if_pos hv, replaced, hg]
    refine hover.eval_eq _ _ fun w hw => ?_
    exact List.map_inj_left.1 ((hstate o).trans (hstate fun _ => false).symm) w hw
  have harena := h.arena
  rw [← hanswer.arena] at harena
  have hlength : s.length = solution.strategy.arena.stateVars.length := hanswer.arena.symm ▸ hs
  have hmove : ∀ o, solution.strategy.move later s o = .ok (followed later
      solution.strategy.functions game.protagonistVars (game.arena.valuation s o)) := fun o =>
    hchooses.move_eq h.arena hanswer.arena hs
  have hfull : ∀ o, game.arena.stateOf (followed later solution.strategy.functions
      game.protagonistVars (game.arena.valuation s o)) = s := fun o =>
    stateOf_followed h.arena hs later solution.strategy.functions o
  have houtputs : ∀ o, ∀ v ∈ game.arena.outputs, followed later solution.strategy.functions
      game.protagonistVars (game.arena.valuation s o) v = Y v := by
    intro o v hv
    rw [← hvars] at hv
    rw [followed, if_pos hv, hvalue o v hv]
  have hinputs : ∀ o, ∀ v ∈ game.arena.inputs, followed later solution.strategy.functions
      game.protagonistVars (game.arena.valuation s o) v = o v := by
    intro o v hv
    have hout : v ∉ game.protagonistVars := hvars ▸ h.arena.inputs_not_mem_outputs hv
    rw [followed, if_neg hout]
    exact Valuation.assign_of_not_mem (fun hmem => h.arena.not_mem_inputs hmem hv) _ _
  refine ⟨Y, fun o => ?_, fun o => ?_, hanswer.preferred hprot hunseeing h.arena hs _⟩
  · have houtputs : solution.strategy.protagonist.vars solution.strategy.arena =
        game.arena.outputs := by
      rw [hanswer.protagonist, hprot, hanswer.arena, Player.vars]
    rw [Strategy.choice_eq (hlength.trans harena.initial_length.symm)
      (fun v hv => hchooses.covers v (by rwa [hvars, ← houtputs])), houtputs, hanswer.arena]
    refine congrArg (fun bits => Except.ok (Binary.decode bits)) (List.map_congr_left fun v hv => ?_)
    exact hvalue o v (hvars ▸ hv)
  · have hstate := hfull o
    have hnext := hmove o
    rw [← hanswer.arena] at hstate hnext
    rw [Strategy.next_eq_successor harena hr hle hnext hstate, hanswer.arena,
      Automaton.successor_congr (hinputs o) (houtputs o)]

end Game

end PlanningGame
