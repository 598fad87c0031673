import Mathlib
import PlanningGame.Proofs.Game.Solving

/-!
# The search ends

Before the search ends every layer has a state that the layer before has not, so it ends after as
many layers as there are states. The number of iterations is also bounded by a fixed number that
does not grow with the number of states. This makes no difference: until the search ends all its
layers are different diagrams, and a store has room for fewer of them. So a game with the default
bound is always answered while there is room.
-/
namespace PlanningGame.Game

open Diagram

variable {game : Game} {origin store : Store} {goal space : Edge}

section Chain

open Classical in
/-- A chain of subsets of a finite set does not grow longer than the set has elements. -/
theorem exists_subset_of_monotone {α : Type} {S : Nat → Set α} (hmono : Monotone S) {T : Finset α}
    (hsub : ∀ k, S k ⊆ T) : ∃ k ≤ T.card, S (k + 1) ⊆ S k := by
  by_contra! hnone
  have hgrows : ∀ k ≤ T.card + 1, k ≤ (T.filter (· ∈ S k)).card := by
    intro k hk
    induction k with
    | zero => exact Nat.zero_le _
    | succ k ih =>
      obtain ⟨t, hnew, hold⟩ := Set.not_subset.1 (hnone k (by omega))
      have hlt : (T.filter (· ∈ S k)).card < (T.filter (· ∈ S (k + 1))).card := by
        refine Finset.card_lt_card ⟨?_, fun hback => hold ?_⟩
        · exact Finset.monotone_filter_right T fun s _ hs => hmono (Nat.le_succ k) hs
        · exact (Finset.mem_filter.1 (hback (Finset.mem_filter.2 ⟨hsub _ hnew, hnew⟩))).2
      have := ih (by omega)
      omega
  have hlast := hgrows _ le_rfl
  have hall := Finset.card_filter_le T (· ∈ S (T.card + 1))
  omega

/-- A chain of layers that grow is no longer than there are states. -/
theorem exists_stable (game : Game) (store : Store) (goal space : Edge) :
    ∃ k ≤ 2 ^ game.arena.stateVars.length, Stable game store goal space k := by
  let members (k : Nat) : Set (List.Vector Bool game.arena.stateVars.length) :=
    {t | t.val ∈ layer game store goal space k}
  have hmono : Monotone members := fun j k hjk t ht => layer_mono hjk ht
  obtain ⟨k, hk, hstable⟩ := exists_subset_of_monotone hmono (fun k t _ => Finset.mem_univ t)
  rw [Finset.card_univ, card_vector, Fintype.card_bool] at hk
  exact ⟨k, hk, fun s hlength hmem => hstable (a := ⟨s, hlength⟩) hmem⟩

end Chain

section Capacity

/-- There are two edges for each position. -/
theorem length_le_of_index_mem {edges : List Edge} (hnodup : edges.Nodup) {places : Finset Nat}
    (hedges : ∀ e ∈ edges, e.index ∈ places) : edges.length ≤ 2 * places.card := by
  let place : Edge → Nat × Bool := fun e => (e.index, e.negated)
  have hinjective : Function.Injective place := fun e f h =>
    Edge.ext (congrArg Prod.fst h) (congrArg Prod.snd h)
  have hsub : (edges.map place).toFinset ⊆ places ×ˢ Finset.univ := by
    intro p hp
    obtain ⟨e, he, rfl⟩ := List.mem_map.1 (List.mem_toFinset.1 hp)
    exact Finset.mem_product.2 ⟨hedges e he, Finset.mem_univ _⟩
  have hcard := Finset.card_le_card hsub
  rw [List.toFinset_card_of_nodup (hnodup.map hinjective), List.length_map, Finset.card_product,
    Finset.card_univ, Fintype.card_bool] at hcard
  omega

theorem length_le_of_nodup {edges : List Edge} (hnodup : edges.Nodup)
    (hedges : ∀ e ∈ edges, store.Has e) : edges.length ≤ 2 * store.nodeCount := by
  have hcount := length_le_of_index_mem hnodup fun e he => Finset.mem_Icc.2 (hedges e he)
  rwa [Nat.card_Icc, Nat.add_sub_cancel] at hcount

theorem length_le_two_mul_positions {edges : List Edge} (hnodup : edges.Nodup) :
    edges.length ≤ 2 * Edge.positions := by
  have hcount := length_le_of_index_mem hnodup fun e _ => Finset.mem_range.2 e.bounded
  rwa [Finset.card_range] at hcount

/-- Until the search ends all layers are different. -/
theorem Progress.layers_nodup {layers : List Edge} (h : game.arena.Closed origin)
    (hp : Progress origin store game goal space layers)
    (hnot : ∀ i < layers.length, ¬ Stops game origin goal space i) : layers.Nodup := by
  rw [← List.nodup_reverse, List.nodup_iff_getElem?_ne_getElem?]
  intro i j hij hj heq
  rw [List.length_reverse] at hj
  obtain ⟨e, he⟩ : ∃ e, layers.reverse[j]? = some e :=
    ⟨_, List.getElem?_eq_getElem (by rwa [List.length_reverse])⟩
  have hearly := hp.layers i e (heq.trans he)
  have hlate := hp.layers j e he
  refine hnot (i + 1) (by omega) (.inr fun s hlength hmem => ?_)
  obtain ⟨a, rfl⟩ := Valuation.exists_map_eq h.stateVars_nodup hlength
  exact (hearly.eval_iff a).1 ((hlate.eval_iff a).2 (layer_mono (by omega) hmem))

theorem Progress.layers_length_le {layers : List Edge} (h : game.arena.Closed origin)
    (hp : Progress origin store game goal space layers)
    (hnot : ∀ i < layers.length, ¬ Stops game origin goal space i) :
    layers.length ≤ 2 * store.nodeCount := by
  refine length_le_of_nodup (hp.layers_nodup h hnot) fun e he => ?_
  obtain ⟨i, hi⟩ := List.mem_iff_getElem?.1 (List.mem_reverse.2 he)
  exact (hp.layers i e hi).has

end Capacity

/-- The default bound is large enough for all states, or for all edges of a store. -/
theorem exists_stops_of_default (game : Game) (store : Store) (goal space : Edge)
    (harena : game.arena.Closed store) (hdefault : game.maxIterations = none) :
    (∃ i < game.iterationBound, Stops game store goal space i) ∨
      2 * Edge.positions ≤ game.iterationBound := by
  unfold iterationBound
  rw [hdefault, Option.getD_none]
  obtain hle | hle := le_total (Binary.codes game.arena.initial.length + 1) lastIteration
  · rw [min_eq_left hle]
    obtain ⟨k, hk, hstable⟩ := exists_stable game store goal space
    rw [← harena.initial_length] at hk
    exact .inl ⟨k, Nat.lt_succ_of_le hk, .inr hstable⟩
  · rw [min_eq_right hle]
    exact .inr (by decide)

/-- With the default bound, or one that is reached after the end of the search, a game is answered
while there is room. -/
theorem delivers_solve_of_stops (hs : store.Sound) (h : game.Closed store goal space)
    (hvars : ∀ v ∈ game.protagonistVars, v ≠ 0)
    (hstops : ∀ m, game.maxIterations = some m → ∃ i < m, Stops game store goal space i) :
    Diagram.Delivers (game.solve .adversarial goal space) store
      fun solution later => Solved store later game goal space solution := by
  refine delivers_solve (fun _ => id) hs h (fun {later layers} hp hlength hnot => ?_) hvars
  have hends : (∃ i < game.iterationBound, Stops game store goal space i) ∨
      2 * Edge.positions ≤ game.iterationBound := by
    cases hbound : game.maxIterations with
    | none => exact exists_stops_of_default game store goal space h.arena hbound
    | some m =>
      refine .inl ?_
      unfold iterationBound
      rw [hbound]
      exact hstops m hbound
  obtain ⟨i, hi, hstops⟩ | hlarge := hends
  · exact absurd hstops (hnot i hi)
  · have := hp.layers_length_le h.arena (hlength ▸ hnot)
    unfold HasRoom
    omega

end PlanningGame.Game
