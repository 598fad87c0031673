import Mathlib
import PlanningGame.Game.Solution
import PlanningGame.Proofs.Game.Arena

/-!
# Attractors

The explicit reading of a reachability game. From the states in which the protagonist can reach the
goal by a safe move one steps back to the states in which the protagonist can force the play into
them. The solver does not collect states but moves, and adds moves only for states that are new;
the moves found after some iterations still single out exactly the states of that layer.
-/
namespace PlanningGame.Game

/-- A game whose diagrams read variables of the arena only: the goal and the space do not see the
moves of the opponent, an environment that moves first is constrained on its inputs alone, and one
that is the protagonist is not constrained. -/
structure Closed (store : Store) (game : Game) (goal space : Edge) : Prop where
  arena : game.arena.Closed store
  goal_over : store.Over (game.arena.stateVars ++ game.protagonistVars) goal
  space_over : store.Over (game.arena.stateVars ++ game.protagonistVars) space
  constraint_over : store.Over game.arena.vars game.constraint
  constraint_early : game.starting = .environment →
    store.Over (game.arena.stateVars ++ game.arena.inputs) game.constraint
  constraint_free : game.protagonist = .environment → game.constraint = .one

section Sets

variable (game : Game) (store : Store) (goal space : Edge)

/-- The states in which a safe move reaches the goal. -/
def base : Set (List Bool) :=
  {s | ∃ X Y, game.arena.Holds store space s X Y ∧ game.arena.Holds store goal s X Y}

/-- The states in which the protagonist has a safe move, or a safe answer to every considered move,
that leads into the given states whatever the opponent answers. -/
def cpre (W : Set (List Bool)) : Set (List Bool) :=
  {s | match game.starting, game.protagonist with
    | .agent, .agent =>
      ∃ Y, (∀ X, game.arena.Holds store space s X Y) ∧
        ∀ X, game.arena.Holds store game.constraint s X Y → game.arena.successor store s X Y ∈ W
    | .agent, .environment =>
      ∀ Y, ∃ X, game.arena.Holds store space s X Y ∧ game.arena.successor store s X Y ∈ W
    | .environment, .agent =>
      ∀ X, (∃ Y, game.arena.Holds store game.constraint s X Y) →
        ∃ Y, game.arena.Holds store space s X Y ∧ game.arena.successor store s X Y ∈ W
    | .environment, .environment =>
      ∃ X, ∀ Y, game.arena.Holds store space s X Y ∧ game.arena.successor store s X Y ∈ W}

/-- The states from which the goal is reached within a number of steps. -/
def layer : Nat → Set (List Bool)
  | 0 => base game store goal space
  | k + 1 => layer k ∪ cpre game store space (layer k)

theorem cpre_mono : Monotone (cpre game store space) := by
  intro W V hWV s hs
  unfold cpre at hs ⊢
  cases hstart : game.starting <;> cases hprot : game.protagonist <;>
    simp only [Set.mem_ofPred_eq, hstart, hprot] at hs ⊢
  · obtain ⟨Y, hspace, hY⟩ := hs
    exact ⟨Y, hspace, fun X hX => hWV (hY X hX)⟩
  · exact fun Y => (hs Y).imp fun X hX => ⟨hX.1, hWV hX.2⟩
  · exact fun X hX => (hs X hX).imp fun Y hY => ⟨hY.1, hWV hY.2⟩
  · exact hs.imp fun X hX Y => ⟨(hX Y).1, hWV (hX Y).2⟩

/-- The least set of states that contains the base and all states from which the protagonist forces
the play into the set. -/
def attractor : Set (List Bool) :=
  OrderHom.lfp ⟨fun W => base game store goal space ∪ cpre game store space W,
    fun _ _ h => Set.union_subset_union_right _ (cpre_mono game store space h)⟩

/-- No state is new in the next layer. -/
def Stable (k : Nat) : Prop :=
  ∀ s : List Bool, s.length = game.arena.stateVars.length →
    s ∈ layer game store goal space (k + 1) → s ∈ layer game store goal space k

/-- The search ends with the next layer: it has the initial state, or no state that is new. -/
def Stops (k : Nat) : Prop :=
  game.arena.initial ∈ layer game store goal space (k + 1) ∨ Stable game store goal space k

variable {game store goal space}

theorem layer_mono {j k : Nat} (h : j ≤ k) :
    layer game store goal space j ⊆ layer game store goal space k :=
  monotone_nat_of_le_succ (f := layer game store goal space)
    (fun _ => Set.subset_union_left) h

theorem base_union_cpre_attractor :
    base game store goal space ∪ cpre game store space (attractor game store goal space) =
      attractor game store goal space := by
  unfold attractor
  exact OrderHom.map_lfp ⟨fun W => base game store goal space ∪ cpre game store space W, _⟩

theorem layer_subset_attractor (k : Nat) :
    layer game store goal space k ⊆ attractor game store goal space := by
  have hclosed : base game store goal space ∪ cpre game store space
      (attractor game store goal space) ⊆ attractor game store goal space :=
    base_union_cpre_attractor.subset
  induction k with
  | zero => exact Set.subset_union_left.trans hclosed
  | succ k ih =>
    refine Set.union_subset ih fun s hs => hclosed (.inr ?_)
    exact cpre_mono game store space ih hs

end Sets

section Moves

variable (game : Game) (store : Store) (goal space : Edge)

/-- The joint moves that lead into the given states whatever the player who moves second does, if
that is the opponent. -/
def leads (W : Set (List Bool)) (s : List Bool) (X Y : Valuation) : Prop :=
  match game.starting, game.protagonist with
  | .agent, .agent =>
    ∀ X, game.arena.Holds store game.constraint s X Y → game.arena.successor store s X Y ∈ W
  | .environment, .environment => ∀ Y, game.arena.successor store s X Y ∈ W
  | .agent, .environment | .environment, .agent => game.arena.successor store s X Y ∈ W

/-- The protagonist has one of the given moves, whatever the opponent does first. -/
def picks (R : List Bool → Valuation → Valuation → Prop) (s : List Bool) : Prop :=
  match game.starting, game.protagonist with
  | .agent, .agent => ∃ Y, ∀ X, R s X Y
  | .agent, .environment => ∀ Y, ∃ X, R s X Y
  | .environment, .agent =>
    ∀ X, (∃ Y, game.arena.Holds store game.constraint s X Y) → ∃ Y, R s X Y
  | .environment, .environment => ∃ X, ∀ Y, R s X Y

/-- The moves found after a number of iterations. Only states that are new get new moves. -/
def found : Nat → List Bool → Valuation → Valuation → Prop
  | 0, s, X, Y => game.arena.Holds store space s X Y ∧ game.arena.Holds store goal s X Y
  | k + 1, s, X, Y =>
    found k s X Y ∨
      (game.arena.Holds store space s X Y ∧ s ∉ layer game store goal space k) ∧
        leads game store (layer game store goal space k) s X Y

variable {game store goal space} {s : List Bool} {X X' Y Y' : Valuation}

theorem leads_mono {W V : Set (List Bool)} (hWV : W ⊆ V) (h : leads game store W s X Y) :
    leads game store V s X Y := by
  unfold leads at h ⊢
  split at h
  · exact fun X hX => hWV (h X hX)
  · exact fun Y => hWV (h Y)
  · exact hWV h
  · exact hWV h

theorem mem_cpre_iff {W : Set (List Bool)} :
    s ∈ cpre game store space W ↔
      picks game store
        (fun s X Y => game.arena.Holds store space s X Y ∧ leads game store W s X Y) s := by
  unfold cpre picks leads
  cases game.starting <;> cases game.protagonist <;> simp only [Set.mem_ofPred_eq]
  · refine exists_congr fun Y => ⟨fun h X => ⟨h.1 X, h.2⟩, fun h => ⟨fun X => (h X).1, ?_⟩⟩
    exact (h fun _ => false).2
  · refine exists_congr fun X => ⟨fun h Y => ⟨(h Y).1, fun Y => (h Y).2⟩, fun h Y => ?_⟩
    exact ⟨(h Y).1, (h Y).2 Y⟩

/-- Every successor is a state of the arena. -/
theorem leads_states (harena : game.arena.Closed store) {W : Set (List Bool)}
    (h : leads game store W s X Y) :
    leads game store (W ∩ {t | t.length = game.arena.stateVars.length}) s X Y := by
  unfold leads at h ⊢
  split at h
  · exact fun X hX => ⟨h X hX, Automaton.successor_length harena⟩
  · exact fun Y => ⟨h Y, Automaton.successor_length harena⟩
  · exact ⟨h, Automaton.successor_length harena⟩
  · exact ⟨h, Automaton.successor_length harena⟩

theorem reads_leads (W : Set (List Bool)) : game.arena.Reads (leads game store W) := by
  intro s X X' Y Y' hX hY
  unfold leads
  split
  · refine forall_congr' fun X => ?_
    rw [Automaton.holds_congr (fun _ _ => rfl) hY, Automaton.successor_congr (fun _ _ => rfl) hY]
  · refine forall_congr' fun Y => ?_
    rw [Automaton.successor_congr hX fun _ _ => rfl]
  · rw [Automaton.successor_congr hX hY]
  · rw [Automaton.successor_congr hX hY]

theorem reads_found (k : Nat) : game.arena.Reads (found game store goal space k) := by
  intro s X X' Y Y' hX hY
  induction k with
  | zero =>
    unfold found
    rw [Automaton.holds_congr hX hY, Automaton.holds_congr hX hY]
  | succ k ih =>
    unfold found
    rw [ih, Automaton.holds_congr hX hY, reads_leads _ s X X' Y Y' hX hY]

/-- In a state that is new, the moves found are the safe ones that lead into the states found
before. -/
theorem found_succ_of_not_mem (k : Nat) (hk : s ∉ layer game store goal space k) :
    found game store goal space (k + 1) s X Y ↔
      game.arena.Holds store space s X Y ∧
        leads game store (layer game store goal space k) s X Y := by
  have old : found game store goal space k s X Y → game.arena.Holds store space s X Y ∧
      leads game store (layer game store goal space k) s X Y := by
    induction k with
    | zero => exact fun h => absurd ⟨X, Y, h⟩ hk
    | succ k ih =>
      have hk' : s ∉ layer game store goal space k := fun h => hk (.inl h)
      rintro (h | ⟨⟨hspace, -⟩, h⟩)
      · obtain ⟨hspace, hleads⟩ := ih hk' h
        exact ⟨hspace, leads_mono Set.subset_union_left hleads⟩
      · exact ⟨hspace, leads_mono Set.subset_union_left h⟩
  refine ⟨?_, fun h => .inr ⟨⟨h.1, hk⟩, h.2⟩⟩
  rintro (h | ⟨⟨hspace, -⟩, h⟩)
  · exact old h
  · exact ⟨hspace, h⟩

/-- A state found before gets no new moves. -/
theorem found_succ_of_mem (k : Nat) (hk : s ∈ layer game store goal space k) :
    found game store goal space (k + 1) s X Y ↔ found game store goal space k s X Y :=
  ⟨fun h => h.elim id fun h => absurd hk h.1.2, .inl⟩

/-- A diagram that does not see the moves of the opponent may be read with any of them. -/
theorem Closed.holds_opponent (h : game.Closed store goal space) {e : Edge}
    (he : store.Over (game.arena.stateVars ++ game.protagonistVars) e)
    (hs : s.length = game.arena.stateVars.length) :
    match game.protagonist with
    | .agent => ∀ X X' Y, game.arena.Holds store e s X Y ↔ game.arena.Holds store e s X' Y
    | .environment =>
        ∀ X Y Y', game.arena.Holds store e s X Y ↔ game.arena.Holds store e s X Y' := by
  unfold protagonistVars Player.vars at he
  split <;> simp_all only
  · exact fun X X' Y => Automaton.holds_of_over_outputs h.arena he hs
  · exact fun X Y Y' => Automaton.holds_of_over_inputs h.arena he hs

/-- The moves found do not depend on those of an opponent who moves second. -/
theorem Closed.found_opponent (h : game.Closed store goal space) (k : Nat)
    (hs : s.length = game.arena.stateVars.length) :
    match game.starting, game.protagonist with
    | .agent, .agent => ∀ X X' Y,
      found game store goal space k s X Y ↔ found game store goal space k s X' Y
    | .environment, .environment => ∀ X Y Y',
      found game store goal space k s X Y ↔ found game store goal space k s X Y'
    | _, _ => True := by
  have hspace := h.holds_opponent h.space_over hs
  have hgoal := h.holds_opponent h.goal_over hs
  induction k with
  | zero =>
    cases hstart : game.starting <;> cases hprot : game.protagonist <;>
      simp only [hprot, found] at hspace hgoal ⊢
    · intro X X' Y
      rw [hspace X X' Y, hgoal X X' Y]
    · intro X Y Y'
      rw [hspace X Y Y', hgoal X Y Y']
  | succ k ih =>
    cases hstart : game.starting <;> cases hprot : game.protagonist <;>
      simp only [hstart, hprot, found, leads] at hspace ih ⊢
    · intro X X' Y
      rw [hspace X X' Y, ih X X' Y]
    · intro X Y Y'
      rw [hspace X Y Y', ih X Y Y']

theorem picks_mono {R R' : List Bool → Valuation → Valuation → Prop}
    (hR : ∀ X Y, R s X Y → R' s X Y) (h : picks game store R s) : picks game store R' s := by
  unfold picks at h ⊢
  split at h
  · exact h.imp fun Y hY X => hR X Y (hY X)
  · exact fun Y => (h Y).imp fun X => hR X Y
  · exact fun X hX => (h X hX).imp fun Y => hR X Y
  · exact h.imp fun X hX Y => hR X Y (hX Y)

theorem picks_congr {R R' : List Bool → Valuation → Valuation → Prop}
    (hR : ∀ X Y, R s X Y ↔ R' s X Y) : picks game store R s ↔ picks game store R' s :=
  ⟨picks_mono fun X Y => (hR X Y).1, picks_mono fun X Y => (hR X Y).2⟩

/-- A layer with the same states as the next one has the states of the attractor. -/
theorem mem_attractor_iff_of_stable (harena : game.arena.Closed store) {k : Nat}
    (hstable : Stable game store goal space k) (hs : s.length = game.arena.stateVars.length) :
    s ∈ attractor game store goal space ↔ s ∈ layer game store goal space k := by
  refine ⟨fun hmem => ?_, fun hmem => layer_subset_attractor k hmem⟩
  -- lists that are no states may be added to the layer without harm
  have hle : attractor game store goal space ⊆
      layer game store goal space k ∪ {t | t.length ≠ game.arena.stateVars.length} := by
    refine OrderHom.lfp_le _ fun t ht => or_iff_not_imp_right.2 fun hlen => ?_
    have hlen : t.length = game.arena.stateVars.length := not_not.1 hlen
    obtain hbase | hcpre := ht
    · exact layer_mono (Nat.zero_le k) hbase
    · refine hstable t hlen (.inr (mem_cpre_iff.2 (picks_mono (fun X Y h => ⟨h.1, ?_⟩)
        (mem_cpre_iff.1 hcpre))))
      exact leads_mono (fun u hu => hu.1.resolve_right fun hne => hne hu.2)
        (leads_states harena h.2)
  exact (hle hmem).resolve_right fun hne => hne hs

/-- What the protagonist can do by a move that the opponent does not influence, the protagonist can
do whatever the opponent plays. -/
theorem Closed.picks_of_mem_base (h : game.Closed store goal space)
    (hs : s.length = game.arena.stateVars.length) (hbase : s ∈ base game store goal space) :
    picks game store (found game store goal space 0) s := by
  obtain ⟨X, Y, hspace, hgoal⟩ := hbase
  have hspaces := h.holds_opponent h.space_over hs
  have hgoals := h.holds_opponent h.goal_over hs
  unfold picks found
  cases hstart : game.starting <;> cases hprot : game.protagonist <;>
    simp only [hprot] at hspaces hgoals ⊢
  · exact ⟨Y, fun X' => ⟨(hspaces X X' Y).1 hspace, (hgoals X X' Y).1 hgoal⟩⟩
  · exact fun Y' => ⟨X, (hspaces X Y Y').1 hspace, (hgoals X Y Y').1 hgoal⟩
  · exact fun X' _ => ⟨Y, (hspaces X X' Y).1 hspace, (hgoals X X' Y).1 hgoal⟩
  · exact ⟨X, fun Y' => ⟨(hspaces X Y Y').1 hspace, (hgoals X Y Y').1 hgoal⟩⟩

theorem picks_found_succ_of_not_mem (k : Nat) (hk : s ∉ layer game store goal space k) :
    picks game store (found game store goal space (k + 1)) s ↔
      s ∈ cpre game store space (layer game store goal space k) := by
  rw [mem_cpre_iff]
  exact picks_congr fun X Y => found_succ_of_not_mem k hk

theorem Closed.picks_found_of_mem (h : game.Closed store goal space)
    (hs : s.length = game.arena.stateVars.length) (k : Nat)
    (hk : s ∈ layer game store goal space k) :
    picks game store (found game store goal space k) s := by
  induction k with
  | zero => exact h.picks_of_mem_base hs hk
  | succ k ih =>
    by_cases hmem : s ∈ layer game store goal space k
    · exact picks_mono (fun _ _ => .inl) (ih hmem)
    · exact (picks_found_succ_of_not_mem k hmem).2 (hk.resolve_left hmem)

/-- The protagonist has one of the moves found in exactly the states of the layer. -/
theorem Closed.picks_found_succ_iff (h : game.Closed store goal space)
    (hs : s.length = game.arena.stateVars.length) (k : Nat) :
    picks game store (found game store goal space (k + 1)) s ↔
      s ∈ layer game store goal space (k + 1) := by
  refine ⟨fun hpicks => ?_, h.picks_found_of_mem hs (k + 1)⟩
  by_cases hmem : s ∈ layer game store goal space k
  · exact .inl hmem
  · exact .inr ((picks_found_succ_of_not_mem k hmem).1 hpicks)

end Moves

end PlanningGame.Game
