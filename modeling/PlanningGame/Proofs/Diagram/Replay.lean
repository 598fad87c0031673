import Mathlib
import PlanningGame.Proofs.Diagram.Ite

/-!
# Answers that are already there

When an if-then-else has been answered, every node on the way to its answer is in the store. To
work it out again asks for these nodes only, so it adds none and ends with the same edge. A computed
result is therefore never more than a shortcut. This is kept as an invariant of stores in which
variables may come in any order; from it follows that the computed results are right.
-/
namespace PlanningGame

namespace Store

variable {store earlier later : Store} {t triple lower upper : Triple} {v : Var}
  {low high e f : Edge}

/-- What a decision with an unmarked high edge leads to when its node is there. -/
def Decided (store : Store) (v : Var) (low high e : Edge) : Prop :=
  if low = high then e = low
  else e.negated = false ∧ store.node? e.index = some ⟨v, low, high⟩

/-- What a decision leads to when its node is there. -/
def Branches (store : Store) (v : Var) (low high e : Edge) : Prop :=
  v ≠ 0 ∧ if high.negated then store.Decided v (-low) (-high) (-e) else store.Decided v low high e

/-- If-then-else leads from the triple to the edge through nodes that are all there. -/
inductive Replays (store : Store) : Triple → Edge → Prop
  | settled {triple : Triple} {e : Edge} :
      triple.standard = .settled e → Replays store triple e
  | reduced {triple t lower upper : Triple} {mark : Bool} {low high e : Edge} :
      triple.standard = .reduced t mark → store.Parts t lower upper →
      Replays store lower low → Replays store upper high →
      store.Branches (store.topVar t) low high e → Replays store triple (e.complementIf mark)

/-- The edge is the answer for a standard triple, by its two parts. -/
def Expands (store : Store) (t : Triple) (e : Edge) : Prop :=
  ∃ lower upper low high, store.Parts t lower upper ∧ store.Replays lower low ∧
    store.Replays upper high ∧ store.Branches (store.topVar t) low high e

theorem Expands.replays {mark : Bool} (h : store.Expands t e)
    (hstd : triple.standard = .reduced t mark) : store.Replays triple (e.complementIf mark) := by
  obtain ⟨lower, upper, low, high, hparts, hlow, hhigh, hbranch⟩ := h
  exact .reduced hstd hparts hlow hhigh hbranch

section Growth

theorem Decided.mono (h : earlier.Decided v low high e) (hle : earlier ≤ later) :
    later.Decided v low high e := by
  unfold Decided at h ⊢
  split
  · rwa [if_pos ‹_›] at h
  · rw [if_neg ‹_›] at h
    exact ⟨h.1, hle _ _ h.2⟩

theorem Branches.mono (h : earlier.Branches v low high e) (hle : earlier ≤ later) :
    later.Branches v low high e := by
  refine ⟨h.1, ?_⟩
  have hdecided := h.2
  split
  · rw [if_pos ‹_›] at hdecided
    exact hdecided.mono hle
  · rw [if_neg ‹_›] at hdecided
    exact hdecided.mono hle

theorem Replays.mono (h : earlier.Replays triple e) (hle : earlier ≤ later) :
    later.Replays triple e := by
  induction h with
  | settled hstd => exact .settled hstd
  | reduced hstd hparts _ _ hbranch ihlow ihhigh =>
    refine .reduced hstd (hparts.mono hle) ihlow ihhigh ?_
    rw [hparts.operands.topVar_eq hle]
    exact hbranch.mono hle

theorem Expands.mono (h : earlier.Expands t e) (hle : earlier ≤ later) : later.Expands t e := by
  obtain ⟨lower, upper, low, high, hparts, hlow, hhigh, hbranch⟩ := h
  refine ⟨lower, upper, low, high, hparts.mono hle, hlow.mono hle, hhigh.mono hle, ?_⟩
  rw [hparts.operands.topVar_eq hle]
  exact hbranch.mono hle

end Growth

section Uniqueness

theorem Decided.unique (hf : store.Founded) (h : store.Decided v low high e)
    (h' : store.Decided v low high f) : e = f := by
  unfold Decided at h h'
  split at h
  · rw [if_pos ‹_›] at h'
    exact h.trans h'.symm
  · rw [if_neg ‹_›] at h'
    exact Edge.ext (hf.unique _ _ _ h.2 h'.2) (h.1.trans h'.1.symm)

theorem Branches.unique (hf : store.Founded) (h : store.Branches v low high e)
    (h' : store.Branches v low high f) : e = f := by
  have hd := h.2
  have hd' := h'.2
  split at hd
  · rw [if_pos ‹_›] at hd'
    exact neg_injective (hd.unique hf hd')
  · rw [if_neg ‹_›] at hd'
    exact hd.unique hf hd'

theorem Replays.unique (hf : store.Founded) (h : store.Replays triple e)
    (h' : store.Replays triple f) : e = f := by
  induction h generalizing f with
  | settled hstd =>
    cases h' with
    | settled hstd' => exact Triple.Standard.settled.inj (hstd.symm.trans hstd')
    | reduced hstd' => exact absurd (hstd.symm.trans hstd') (by simp)
  | reduced hstd hparts _ _ hbranch ihlow ihhigh =>
    cases h' with
    | settled hstd' => exact absurd (hstd.symm.trans hstd') (by simp)
    | reduced hstd' hparts' hlow' hhigh' hbranch' =>
      obtain ⟨rfl, rfl⟩ := Triple.Standard.reduced.inj (hstd.symm.trans hstd')
      obtain ⟨rfl, rfl⟩ := hparts.unique hparts'
      obtain rfl := ihlow hlow'
      obtain rfl := ihhigh hhigh'
      rw [hbranch.unique hf hbranch']

theorem Expands.unique (hf : store.Founded) (h : store.Expands t e) (h' : store.Expands t f) :
    e = f := by
  obtain ⟨lower, upper, low, high, hparts, hlow, hhigh, hbranch⟩ := h
  obtain ⟨lower', upper', low', high', hparts', hlow', hhigh', hbranch'⟩ := h'
  obtain ⟨rfl, rfl⟩ := hparts.unique hparts'
  obtain rfl := hlow.unique hf hlow'
  obtain rfl := hhigh.unique hf hhigh'
  exact hbranch.unique hf hbranch'

end Uniqueness

section Meaning

/-- A decision that is there has the function of a decision. -/
theorem Decided.denotes (hf : store.Founded) (h : store.Decided v low high e) (hv : v ≠ 0)
    (hlow : store.Has low) : store.Denotes e fun a =>
      if a v then store.eval high a = true else store.eval low a = true := by
  unfold Decided at h
  split at h
  · next heq =>
    subst heq h
    exact hlow.denotes.congr fun a => by simp
  · have hnode := h.2
    have hhas := has_of_node? hnode
    have hinner : e.index ≠ 1 := by
      intro hi
      rw [hi, hf.terminal, Option.some.injEq] at hnode
      exact hv (congrArg Node.var hnode).symm
    refine ⟨hhas, fun a => ?_⟩
    rw [hf.eval_inner hhas hinner, Store.low, Store.high, node_of_node? hnode, h.1]
    split <;> simp_all

theorem Branches.denotes (hf : store.Founded) (h : store.Branches v low high e)
    (hlow : store.Has low) (hhigh : store.Has high) : store.Denotes e fun a =>
      if a v then store.eval high a = true else store.eval low a = true := by
  have hdecided := h.2
  split at hdecided
  · have hneg := (hdecided.denotes hf h.1 hlow).neg hf
    rw [neg_neg] at hneg
    refine hneg.congr fun a => ?_
    split <;> simp [hf.eval_neg hlow, hf.eval_neg hhigh]
  · exact hdecided.denotes hf h.1 hlow

/-- An answer that is there is right. -/
theorem Replays.computes (hf : store.Founded) (h : store.Replays triple e)
    (ht : store.HasTriple triple) : store.Computes triple e := by
  induction h with
  | settled hstd =>
    have hkey := hf.standardizes ht
    rwa [hstd] at hkey
  | reduced hstd hparts _ _ hbranch ihlow ihhigh =>
    have hkey := hf.standardizes ht
    rw [hstd] at hkey
    obtain ⟨-, -, -, hvalue⟩ := hkey
    have hhalves := hparts.halves hf
    have hlow := ihlow hhalves.has_lower
    have hhigh := ihhigh hhalves.has_upper
    have he := hparts.computes hf hlow hhigh (hbranch.denotes hf hlow.result hhigh.result)
    refine ⟨ht, (has_complementIf _).2 he.result, fun a => ?_⟩
    rw [hf.eval_complementIf he.result, he.eval_eq, hvalue]

theorem Expands.computes (hf : store.Founded) (h : store.Expands t e) : store.Computes t e := by
  obtain ⟨lower, upper, low, high, hparts, hlow, hhigh, hbranch⟩ := h
  have hhalves := hparts.halves hf
  have hlow := hlow.computes hf hhalves.has_lower
  have hhigh := hhigh.computes hf hhalves.has_upper
  exact hparts.computes hf hlow hhigh (hbranch.denotes hf hlow.result hhigh.result)

end Meaning

/-- A founded store whose look-up finds every node and whose computed results are all there. -/
structure Replayable (store : Store) : Prop extends Founded store where
  indexed : store.nodes.Indexed Node.key (· = .terminal)
  recorded : ∀ (i : Nat) (t : Triple) (e : Edge),
    store.computed.slots[i]? = some (some (t, e)) → store.Expands t e

/-- Results that are there are right. -/
theorem Replayable.regular (h : store.Replayable) : store.Regular :=
  ⟨h.toFounded, h.indexed, fun i t e hi => (h.recorded i t e hi).computes h.toFounded⟩

theorem Replayable.of_nodes_eq (h : store.Replayable) (hnodes : later.nodes = store.nodes)
    (hrecorded : ∀ (i : Nat) (t : Triple) (e : Edge),
      later.computed.slots[i]? = some (some (t, e)) → store.Expands t e) : later.Replayable :=
  ⟨h.toFounded.of_nodes_eq hnodes, hnodes ▸ h.indexed, fun i t e hi =>
    (hrecorded i t e hi).mono (le_of_nodes_eq hnodes)⟩

theorem Replayable.lookedUp (h : store.Replayable) (t : Triple) :
    (store.lookedUp t).Replayable :=
  h.of_nodes_eq rfl fun i t' e hi => h.recorded i t' e (store.lookedUp_slots t ▸ hi)

theorem Replayable.remembering (h : store.Replayable) (he : store.Expands t e) :
    (store.remembering t e).Replayable := by
  refine h.of_nodes_eq rfl fun i t' f hi => ?_
  obtain ⟨rfl, rfl⟩ | hi := ComputedTable.slot_of_insert hi
  · exact he
  · exact h.recorded i t' f hi

/-- What a look-up finds is the answer. -/
theorem Replayable.expands_of_find? (h : store.Replayable)
    (hfind : store.computed.find? Triple.key t = some e) : store.Expands t e := by
  obtain ⟨i, hi⟩ := ComputedTable.exists_slot_of_find? hfind
  exact h.recorded i t e hi

end Store

namespace Diagram

variable {store : Store} {t triple lower upper : Triple} {v : Var} {low high e : Edge}
  {α β : Type}

/-- The operation gives the answer and leaves all nodes and buckets alone. -/
def Stays (op : DiagramM α) (store : Store) (answer : α) : Prop :=
  ∃ later, op.run.run store = (.ok answer, later) ∧ later.nodes = store.nodes ∧ later.Replayable

theorem stays_pure (hs : store.Replayable) (answer : α) : Stays (pure answer) store answer :=
  ⟨store, rfl, rfl, hs⟩

theorem Stays.bind {op : DiagramM α} {next : α → DiagramM β} {middle : α} {answer : β}
    (h : Stays op store middle)
    (hnext : ∀ later : Store, later.nodes = store.nodes → later.Replayable →
      Stays (next middle) later answer) : Stays (op >>= next) store answer := by
  obtain ⟨later, hrun, hnodes, hlater⟩ := h
  obtain ⟨last, hrun', hnodes', hlast⟩ := hnext later hnodes hlater
  exact ⟨last, (run_bind_of_ok hrun next).trans hrun', hnodes'.trans hnodes, hlast⟩

theorem Stays.map {op : DiagramM α} {answer : α} (f : α → β) (h : Stays op store answer) :
    Stays (f <$> op) store (f answer) := by
  rw [← bind_pure_comp]
  exact h.bind fun _ _ hlater => stays_pure hlater _

theorem edgeTo_index (he : e.negated = false) : Store.edgeTo e.index = .ok e := by
  unfold Store.edgeTo
  rw [dif_pos e.bounded]
  exact congrArg Except.ok (Edge.ext rfl he.symm)

/-- A node is looked up at its only position. -/
theorem find?_of_node? (hf : store.Founded)
    (hindexed : store.nodes.Indexed Node.key (· = .terminal)) {node : Node} {i : Nat}
    (hnode : node ≠ .terminal) (hi : store.node? i = some node) :
    store.nodes.find? Node.key node = some i := by
  cases hfind : store.nodes.find? Node.key node with
  | none => exact absurd hi (hindexed.not_mem_of_find? hnode hfind i)
  | some j => rw [hf.unique i j node hi (UniqueTable.value?_of_find? hfind)]

theorem stays_reduced (hs : store.Replayable) (hv : v ≠ 0) (h : store.Decided v low high e) :
    Stays (reduced v low high) store e := by
  unfold Store.Decided at h
  unfold reduced
  split
  · rw [if_pos ‹_›] at h
    exact h ▸ stays_pure hs e
  · rw [if_neg ‹_›] at h
    have hnode : (⟨v, low, high⟩ : Node) ≠ .terminal := fun heq => hv (congrArg Node.var heq)
    have hfind := find?_of_node? hs.toFounded hs.indexed hnode h.2
    refine ⟨store, ?_, rfl, hs⟩
    change store.intern _ = _
    rw [intern_of_find? hfind, edgeTo_index h.1]

theorem stays_branch (hs : store.Replayable) (h : store.Branches v low high e) :
    Stays (branch v low high) store e := by
  have hdecided := h.2
  unfold branch
  rw [if_neg h.1]
  split
  · rw [if_pos ‹_›] at hdecided
    refine (stays_reduced hs h.1 hdecided).bind fun later _ hlater => ?_
    rw [neg_neg]
    exact stays_pure hlater e
  · rw [if_neg ‹_›] at hdecided
    exact stays_reduced hs h.1 hdecided

theorem stays_remember (hs : store.Replayable) (h : store.Expands t e) :
    Stays (remember t e) store () :=
  ⟨store.remembering t e, run_remember store t e, rfl, hs.remembering h⟩

theorem stays_combine {depth : Nat} (hs : store.Replayable) (hparts : store.Parts t lower upper)
    (ih : ∀ {store : Store} {triple : Triple} {e : Edge}, store.Replayable →
      store.HasTriple triple → triple.weight < depth → store.Replays triple e →
      Stays (iteWithin depth triple) store e)
    (hd : t.weight ≤ depth) (hlow : store.Replays lower low) (hhigh : store.Replays upper high)
    (hbranch : store.Branches (store.topVar t) low high e) :
    Stays (combine depth (store.topVar t) t lower upper) store e := by
  have hhalves := hparts.halves hs.toFounded
  have hlt := hhalves.lower_lt
  have hut := hhalves.upper_lt
  have hexpands : store.Expands t e := ⟨lower, upper, low, high, hparts, hlow, hhigh, hbranch⟩
  unfold combine
  refine (ih hs hhalves.has_lower (by omega) hlow).bind fun later₁ hnodes₁ hs₁ => ?_
  have hle₁ := Store.le_of_nodes_eq hnodes₁
  refine (ih hs₁ (hhalves.has_upper.mono hle₁) (by omega)
    (hhigh.mono hle₁)).bind fun later₂ hnodes₂ hs₂ => ?_
  have hle₂ := hle₁.trans (Store.le_of_nodes_eq hnodes₂)
  refine (stays_branch hs₂ (hbranch.mono hle₂)).bind fun later₃ hnodes₃ hs₃ => ?_
  have hle₃ := hle₂.trans (Store.le_of_nodes_eq hnodes₃)
  exact (stays_remember hs₃ (hexpands.mono hle₃)).bind fun _ _ hs₄ => stays_pure hs₄ e

/-- An answer that is there is given without a new node, whether it is looked up or worked out. The
induction is on the bound of the depth, as the parts of a triple are smaller. -/
theorem stays_iteWithin (depth : Nat) (hs : store.Replayable) (ht : store.HasTriple triple)
    (hd : triple.weight < depth) (h : store.Replays triple e) :
    Stays (iteWithin depth triple) store e := by
  induction depth generalizing store triple e with
  | zero => omega
  | succ depth ih =>
    have hkey := hs.toFounded.standardizes ht
    cases h with
    | settled hstd =>
      rw [iteWithin, hstd]
      exact stays_pure hs e
    | @reduced _ t lower upper mark low high e hstd hparts hlow hhigh hbranch =>
      rw [hstd] at hkey
      obtain ⟨-, -, hweight, -⟩ := hkey
      have hexpands : store.Expands t e := ⟨lower, upper, low, high, hparts, hlow, hhigh, hbranch⟩
      rw [iteWithin_of_reduced depth hstd]
      refine Stays.map _ ?_
      cases hfind : store.computed.find? Triple.key t with
      | some f =>
        -- what is remembered was worked out before, and there is only one edge like that
        obtain rfl := hexpands.unique hs.toFounded (hs.expands_of_find? hfind)
        exact ⟨_, resolve_of_find? depth hfind, rfl, hs.lookedUp t⟩
      | none =>
        have hle := store.le_lookedUp t
        have htop := hparts.operands.topVar_eq hle
        have hwork := stays_combine (hs.lookedUp t) (hparts.mono hle) ih (by omega)
          (hlow.mono hle) (hhigh.mono hle) (htop.symm ▸ hbranch.mono hle)
        rw [htop] at hwork
        obtain ⟨later, hrun, hnodes, hlater⟩ := hwork
        exact ⟨later, (resolve_of_miss depth hfind hparts).trans hrun, hnodes, hlater⟩

end Diagram

end PlanningGame
