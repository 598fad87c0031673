import Mathlib
import PlanningGame.Game.Basic
import PlanningGame.Proofs.Diagram.Quantifier

/-!
# Explicit arenas

The diagrams of a closed arena read the state, the inputs and the outputs of the arena only. Such an
arena is a game graph: a state and a joint move of both players have one successor. A valuation of
all variables is a position of this graph, and to quantify the variables of a player is to range
over the moves of that player.
-/
namespace PlanningGame

/-- A diagram of the store that reads the listed variables only. -/
structure Store.Over (store : Store) (vars : List Var) (e : Edge) : Prop where
  has : store.Has e
  eval_eq : ∀ a b : Valuation, (∀ v ∈ vars, a v = b v) → store.eval e a = store.eval e b

namespace Store

variable {store later : Store} {vars : List Var} {e : Edge}

theorem Over.subset {more : List Var} (h : store.Over vars e) (hsub : vars ⊆ more) :
    store.Over more e :=
  ⟨h.has, fun a b hab => h.eval_eq a b fun v hv => hab v (hsub hv)⟩

theorem Denotes.over {P : Valuation → Prop} (h : store.Denotes e P)
    (hP : ∀ a b : Valuation, (∀ v ∈ vars, a v = b v) → (P a → P b)) : store.Over vars e := by
  refine ⟨h.has, fun a b hab => Bool.eq_iff_iff.2 ?_⟩
  rw [h.eval_iff, h.eval_iff]
  exact ⟨hP a b hab, hP b a fun v hv => (hab v hv).symm⟩

theorem Over.mono (h : store.Over vars e) (hr : store.Reduced) (hle : store ≤ later) :
    later.Over vars e :=
  ⟨h.has.mono hle, fun a b hab => by
    rw [hr.eval_mono hle h.has, hr.eval_mono hle h.has, h.eval_eq a b hab]⟩

theorem Reduced.over_one (h : store.Reduced) : store.Over vars .one :=
  ⟨h.has_one, fun _ _ _ => by simp⟩

/-- A diagram reads the variables of its nodes only. -/
theorem Reduced.over_of_node (h : store.Reduced) (he : store.Has e)
    (hvars : ∀ i ≤ e.index, 1 < i → (store.node i).var ∈ vars) : store.Over vars e := by
  refine ⟨he, fun a b hab => ?_⟩
  refine h.founded.edge_induction
    (motive := fun f => f.index ≤ e.index → store.eval f a = store.eval f b) ?_ ?_ e he le_rfl
  · intro f hi _
    obtain rfl | rfl := Edge.eq_of_index_eq_one hi <;> simp
  · intro f hf hi ihl ihh hle
    have hl := h.founded.low_lt hf hi
    have hh := h.founded.high_lt hf hi
    have hpos := hf.1
    rw [h.founded.eval_inner hf hi, h.founded.eval_inner hf hi, ihl (by omega), ihh (by omega),
      hab _ (hvars _ hle (by omega))]

/-- A diagram reads none of the variables that it ignores. -/
theorem Reduced.over_of_ignores (h : store.Reduced) (he : store.Has e)
    (hignores : ∀ v, v ∉ vars → store.Ignores e v) : store.Over vars e := by
  let nodeVars := (List.range (e.index + 1)).map fun i => (store.node i).var
  have hnodes : store.Over nodeVars e := h.over_of_node he fun i hi _ =>
    List.mem_map.2 ⟨i, List.mem_range.2 (by omega), rfl⟩
  refine ⟨he, fun a b hab => ?_⟩
  -- the variables of the nodes that are not listed may be changed to their values in the other
  let others := nodeVars.filter (· ∉ vars)
  have hothers : ∀ v ∈ others, store.Ignores e v := fun v hv =>
    hignores v (by simpa using (List.mem_filter.1 hv).2)
  have hvaries : a.VariesOn others fun v => if v ∈ others then b v else a v :=
    fun v hv => if_neg hv
  rw [← eval_eq_of_variesOn hothers hvaries]
  refine hnodes.eval_eq _ _ fun v hv => ?_
  by_cases hlisted : v ∈ vars
  · have hnot : v ∉ others := fun hmem => by simpa [hlisted] using (List.mem_filter.1 hmem).2
    rw [if_neg hnot, hab v hlisted]
  · exact if_pos (List.mem_filter.2 ⟨hv, by simpa using hlisted⟩)

end Store

namespace Automaton

/-- All variables that an automaton may read, states first. -/
def vars (arena : Automaton) : List Var :=
  arena.stateVars ++ (arena.inputs ++ arena.outputs)

/-- A closed arena: one initial and one next value for each state variable, no variable in two
places, and next values that depend on nothing else. -/
structure Closed (store : Store) (arena : Automaton) : Prop where
  initial_length : arena.initial.length = arena.stateVars.length
  next_length : arena.next.length = arena.stateVars.length
  nodup : arena.vars.Nodup
  next_over : ∀ e ∈ arena.next, store.Over arena.vars e

/-- The state of a valuation. -/
def stateOf (arena : Automaton) (a : Valuation) : List Bool :=
  arena.stateVars.map a

@[simp] theorem stateOf_length (arena : Automaton) (a : Valuation) :
    (arena.stateOf a).length = arena.stateVars.length :=
  List.length_map _

/-- The valuation with a state, inputs taken from `X` and outputs taken from `Y`. All other
variables are false. -/
def joint (arena : Automaton) (s : List Bool) (X Y : Valuation) : Valuation :=
  arena.valuation s fun v =>
    if v ∈ arena.inputs then X v else if v ∈ arena.outputs then Y v else false

/-- In the given state the joint move satisfies the diagram. -/
def Holds (arena : Automaton) (store : Store) (e : Edge) (s : List Bool) (X Y : Valuation) : Prop :=
  store.eval e (arena.joint s X Y) = true

/-- The next state under a joint move. -/
def successor (arena : Automaton) (store : Store) (s : List Bool) (X Y : Valuation) : List Bool :=
  arena.next.map fun e => store.eval e (arena.joint s X Y)

section Joint

variable {arena : Automaton} {store : Store} {s : List Bool} {X X' Y Y' a b : Valuation}

theorem joint_congr (hX : ∀ v ∈ arena.inputs, X v = X' v) (hY : ∀ v ∈ arena.outputs, Y v = Y' v) :
    arena.joint s X Y = arena.joint s X' Y' := by
  unfold joint
  congr 1
  funext v
  by_cases hin : v ∈ arena.inputs
  · simp [hin, hX v hin]
  · by_cases hout : v ∈ arena.outputs <;> simp [hin, hout, hY v]

/-- The joint valuation at the state of a valuation. -/
theorem joint_stateOf (v : Var) :
    arena.joint (arena.stateOf a) X Y v =
      if v ∈ arena.stateVars then a v
      else if v ∈ arena.inputs then X v else if v ∈ arena.outputs then Y v else false :=
  Valuation.assign_map _ a arena.stateVars v

theorem joint_stateOf_self {v : Var} (hv : v ∈ arena.vars) :
    arena.joint (arena.stateOf a) a a v = a v := by
  rw [joint_stateOf]
  simp only [vars, List.mem_append] at hv
  split
  · rfl
  split
  · rfl
  rw [if_pos (by tauto)]

theorem eval_joint {e : Edge} (he : store.Over arena.vars e) (a : Valuation) :
    store.eval e (arena.joint (arena.stateOf a) a a) = store.eval e a :=
  he.eval_eq _ _ fun _ => joint_stateOf_self

/-- A diagram of the arena at a valuation. -/
theorem holds_stateOf {e : Edge} (he : store.Over arena.vars e) (a : Valuation) :
    arena.Holds store e (arena.stateOf a) a a ↔ store.eval e a = true := by
  rw [Holds, eval_joint he]

theorem Closed.not_mem_inputs (h : arena.Closed store) {v : Var} (hv : v ∈ arena.stateVars) :
    v ∉ arena.inputs :=
  fun hin => (List.nodup_append.1 h.nodup).2.2 v hv v (List.mem_append_left _ hin) rfl

theorem Closed.not_mem_outputs (h : arena.Closed store) {v : Var} (hv : v ∈ arena.stateVars) :
    v ∉ arena.outputs :=
  fun hout => (List.nodup_append.1 h.nodup).2.2 v hv v (List.mem_append_right _ hout) rfl

theorem Closed.inputs_not_mem_outputs (h : arena.Closed store) {v : Var} (hv : v ∈ arena.inputs) :
    v ∉ arena.outputs :=
  fun hout =>
    (List.nodup_append.1 (List.nodup_append.1 h.nodup).2.1).2.2 v hv v hout rfl

theorem Closed.stateVars_nodup (h : arena.Closed store) : arena.stateVars.Nodup :=
  (List.nodup_append.1 h.nodup).1

theorem Closed.stateOf_joint (h : arena.Closed store) (hs : s.length = arena.stateVars.length) :
    arena.stateOf (arena.joint s X Y) = s :=
  Valuation.map_assign _ h.stateVars_nodup hs

theorem Closed.joint_of_mem_inputs (h : arena.Closed store) {v : Var} (hv : v ∈ arena.inputs) :
    arena.joint s X Y v = X v := by
  have hstate : v ∉ arena.stateVars := fun hmem => h.not_mem_inputs hmem hv
  rw [joint, valuation, Valuation.assign_of_not_mem hstate, if_pos hv]

theorem Closed.joint_of_mem_outputs (h : arena.Closed store) {v : Var} (hv : v ∈ arena.outputs) :
    arena.joint s X Y v = Y v := by
  have hstate : v ∉ arena.stateVars := fun hmem => h.not_mem_outputs hmem hv
  have hinput : v ∉ arena.inputs := fun hmem => h.inputs_not_mem_outputs hmem hv
  rw [joint, valuation, Valuation.assign_of_not_mem hstate, if_neg hinput, if_pos hv]

theorem Closed.mono {later : Store} (h : arena.Closed store) (hr : store.Reduced)
    (hle : store ≤ later) : arena.Closed later :=
  ⟨h.initial_length, h.next_length, h.nodup, fun e he => (h.next_over e he).mono hr hle⟩

@[simp] theorem successor_length (h : arena.Closed store) :
    (arena.successor store s X Y).length = arena.stateVars.length := by
  rw [successor, List.length_map, h.next_length]

theorem successor_congr (hX : ∀ v ∈ arena.inputs, X v = X' v)
    (hY : ∀ v ∈ arena.outputs, Y v = Y' v) :
    arena.successor store s X Y = arena.successor store s X' Y' := by
  unfold successor
  rw [joint_congr hX hY]

theorem holds_congr {e : Edge} (hX : ∀ v ∈ arena.inputs, X v = X' v)
    (hY : ∀ v ∈ arena.outputs, Y v = Y' v) :
    arena.Holds store e s X Y ↔ arena.Holds store e s X' Y' := by
  rw [Holds, Holds, joint_congr hX hY]

/-- A diagram without the inputs does not see the move of the environment. -/
theorem holds_of_over_outputs (h : arena.Closed store) {e : Edge}
    (he : store.Over (arena.stateVars ++ arena.outputs) e)
    (hs : s.length = arena.stateVars.length) :
    arena.Holds store e s X Y ↔ arena.Holds store e s X' Y := by
  obtain ⟨a, rfl⟩ := Valuation.exists_map_eq h.stateVars_nodup hs
  rw [Holds, Holds, he.eval_eq _ (arena.joint (arena.stateOf a) X' Y)]
  · rfl
  intro v hv
  change arena.joint (arena.stateOf a) X Y v = _
  rw [joint_stateOf, joint_stateOf]
  obtain hv | hv := List.mem_append.1 hv
  · simp [hv]
  · have : v ∉ arena.inputs := fun hin => h.inputs_not_mem_outputs hin hv
    simp [this]

/-- A diagram without the outputs does not see the move of the agent. -/
theorem holds_of_over_inputs (h : arena.Closed store) {e : Edge}
    (he : store.Over (arena.stateVars ++ arena.inputs) e) (hs : s.length = arena.stateVars.length) :
    arena.Holds store e s X Y ↔ arena.Holds store e s X Y' := by
  obtain ⟨a, rfl⟩ := Valuation.exists_map_eq h.stateVars_nodup hs
  rw [Holds, Holds, he.eval_eq _ (arena.joint (arena.stateOf a) X Y')]
  · rfl
  intro v hv
  change arena.joint (arena.stateOf a) X Y v = _
  rw [joint_stateOf, joint_stateOf]
  obtain hv | hv := List.mem_append.1 hv <;> simp [hv]

/-- A property of joint moves that reads inputs off the first valuation and outputs off the
second. -/
def Reads (arena : Automaton) (R : List Bool → Valuation → Valuation → Prop) : Prop :=
  ∀ s X X' Y Y', (∀ v ∈ arena.inputs, X v = X' v) → (∀ v ∈ arena.outputs, Y v = Y' v) →
    (R s X Y ↔ R s X' Y')

variable {R : List Bool → Valuation → Valuation → Prop}

theorem Closed.stateOf_of_variesOn {vars : List Var} (hsub : vars ⊆ arena.inputs ++ arena.outputs)
    (h : arena.Closed store) (hab : a.VariesOn vars b) : arena.stateOf b = arena.stateOf a := by
  refine List.map_congr_left fun v hv => hab v fun hmem => ?_
  obtain hin | hout := List.mem_append.1 (hsub hmem)
  · exact h.not_mem_inputs hv hin
  · exact h.not_mem_outputs hv hout

/-- The valuation with some variables taken from another one. -/
theorem variesOn_ite (vars : List Var) (a X : Valuation) :
    a.VariesOn vars fun v => if v ∈ vars then X v else a v :=
  fun _ hv => if_neg hv

/-- Quantifying the inputs ranges over the moves of the environment. -/
theorem Closed.exists_inputs (h : arena.Closed store) (hR : arena.Reads R) (a : Valuation) :
    (∃ b, a.VariesOn arena.inputs b ∧ R (arena.stateOf b) b b) ↔
      ∃ X, R (arena.stateOf a) X a := by
  constructor
  · rintro ⟨b, hab, hb⟩
    rw [h.stateOf_of_variesOn (List.subset_append_left _ _) hab] at hb
    refine ⟨b, (hR _ _ _ _ _ (fun _ _ => rfl) fun v hv => ?_).1 hb⟩
    exact hab v fun hin => h.inputs_not_mem_outputs hin hv
  · rintro ⟨X, hX⟩
    have hab := variesOn_ite arena.inputs a X
    refine ⟨_, hab, ?_⟩
    rw [h.stateOf_of_variesOn (List.subset_append_left _ _) hab]
    refine (hR _ _ _ _ _ (fun v hv => ?_) fun v hv => ?_).1 hX
    · exact (if_pos hv).symm
    · exact (if_neg fun hin => h.inputs_not_mem_outputs hin hv).symm

/-- Quantifying the outputs ranges over the moves of the agent. -/
theorem Closed.exists_outputs (h : arena.Closed store) (hR : arena.Reads R) (a : Valuation) :
    (∃ b, a.VariesOn arena.outputs b ∧ R (arena.stateOf b) b b) ↔
      ∃ Y, R (arena.stateOf a) a Y := by
  constructor
  · rintro ⟨b, hab, hb⟩
    rw [h.stateOf_of_variesOn (List.subset_append_right _ _) hab] at hb
    refine ⟨b, (hR _ _ _ _ _ (fun v hv => ?_) fun _ _ => rfl).1 hb⟩
    exact hab v (h.inputs_not_mem_outputs hv)
  · rintro ⟨Y, hY⟩
    have hab := variesOn_ite arena.outputs a Y
    refine ⟨_, hab, ?_⟩
    rw [h.stateOf_of_variesOn (List.subset_append_right _ _) hab]
    refine (hR _ _ _ _ _ (fun v hv => ?_) fun v hv => ?_).1 hY
    · exact (if_neg (h.inputs_not_mem_outputs hv)).symm
    · exact (if_pos hv).symm

/-- Quantifying inputs and outputs ranges over the joint moves. -/
theorem Closed.exists_moves (h : arena.Closed store) (hR : arena.Reads R) (a : Valuation) :
    (∃ b, a.VariesOn (arena.inputs ++ arena.outputs) b ∧ R (arena.stateOf b) b b) ↔
      ∃ X Y, R (arena.stateOf a) X Y := by
  constructor
  · rintro ⟨b, hab, hb⟩
    rw [h.stateOf_of_variesOn (List.Subset.refl _) hab] at hb
    exact ⟨b, b, hb⟩
  · rintro ⟨X, Y, hXY⟩
    have hab := variesOn_ite (arena.inputs ++ arena.outputs) a
      fun v => if v ∈ arena.inputs then X v else Y v
    refine ⟨_, hab, ?_⟩
    rw [h.stateOf_of_variesOn (List.Subset.refl _) hab]
    refine (hR _ _ _ _ _ (fun v hv => ?_) fun v hv => ?_).1 hXY
    · simp [hv]
    · have : v ∉ arena.inputs := fun hin => h.inputs_not_mem_outputs hin hv
      simp [hv, this]

theorem Reads.not (hR : arena.Reads R) : arena.Reads fun s X Y => ¬ R s X Y :=
  fun s X X' Y Y' hX hY => not_congr (hR s X X' Y Y' hX hY)

theorem Closed.forall_inputs (h : arena.Closed store) (hR : arena.Reads R) (a : Valuation) :
    (∀ b, a.VariesOn arena.inputs b → R (arena.stateOf b) b b) ↔
      ∀ X, R (arena.stateOf a) X a := by
  have key := not_congr (h.exists_inputs hR.not a)
  push Not at key
  exact key

theorem Closed.forall_outputs (h : arena.Closed store) (hR : arena.Reads R) (a : Valuation) :
    (∀ b, a.VariesOn arena.outputs b → R (arena.stateOf b) b b) ↔
      ∀ Y, R (arena.stateOf a) a Y := by
  have key := not_congr (h.exists_outputs hR.not a)
  push Not at key
  exact key

end Joint

section Next

variable {arena : Automaton} {store : Store}

theorem Closed.getElem?_nextValues (h : arena.Closed store) {i : Nat} {v : Var} {e : Edge}
    (hv : arena.stateVars[i]? = some v) (he : arena.next[i]? = some e) :
    arena.nextValues[v]? = some e := by
  refine Std.TreeMap.getElem?_ofList_of_mem Std.ReflCmp.compare_self ?_
    (List.mem_of_getElem? (List.getElem?_zip_eq_some.2 ⟨hv, he⟩))
  have hfst : ((arena.stateVars.zip arena.next).map Prod.fst).Nodup := by
    rw [List.map_fst_zip h.next_length.ge]
    exact h.stateVars_nodup
  exact (List.pairwise_map.1 hfst).imp fun hne heq => hne (Std.LawfulEqOrd.eq_of_compare heq)

theorem Closed.getElem?_nextValues_of_not_mem (h : arena.Closed store) {v : Var}
    (hv : v ∉ arena.stateVars) : arena.nextValues[v]? = none := by
  refine Std.TreeMap.getElem?_ofList_of_contains_eq_false ?_
  rw [List.map_fst_zip h.next_length.ge]
  simpa using hv

theorem Closed.hasImages_nextValues (h : arena.Closed store) :
    Diagram.HasImages store arena.nextValues := by
  intro v e he
  by_cases hv : v ∈ arena.stateVars
  · obtain ⟨i, hi⟩ := List.mem_iff_getElem?.1 hv
    have hlt : i < arena.next.length := h.next_length ▸ (List.getElem?_eq_some_iff.1 hi).1
    rw [h.getElem?_nextValues hi (List.getElem?_eq_getElem hlt), Option.some.injEq] at he
    exact he ▸ (h.next_over _ (List.getElem_mem hlt)).has
  · rw [h.getElem?_nextValues_of_not_mem hv] at he
    exact absurd he (by simp)

/-- Replacing the state variables by their next values moves on to the successor. -/
theorem Closed.stateOf_replaced (h : arena.Closed store) (a : Valuation) :
    arena.stateOf (Diagram.replaced store arena.nextValues a) =
      arena.successor store (arena.stateOf a) a a := by
  refine List.ext_getElem (by simp [stateOf, successor, h.next_length]) fun i hi hi' => ?_
  simp only [stateOf, successor, List.getElem_map, List.length_map] at hi hi' ⊢
  have himage := h.getElem?_nextValues (List.getElem?_eq_getElem hi) (List.getElem?_eq_getElem hi')
  rw [Diagram.replaced, himage]
  exact (eval_joint (h.next_over _ (List.getElem_mem hi')) a).symm

end Next

end Automaton

end PlanningGame
