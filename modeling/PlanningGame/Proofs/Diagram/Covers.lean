import Mathlib
import PlanningGame.Proofs.Diagram.Copies

/-!
# Stores that hold a copy of every node of another

If one store holds all nodes of another and the nodes of some decision or if-then-else, then the
other store has room for the nodes of this operation: it has no more nodes than there are positions
in the first. So what does not fill a store up does not fill up a store with less in it.
-/
namespace PlanningGame

namespace Store

variable {s s' t t' : Store} {e f low low' high high' : Edge} {v : Var}

/-- Every node of the second store has a copy in the first, and not all positions are in use. -/
structure Covers (s t : Store) : Prop where
  room : Diagram.HasRoom t
  exists_copy : ∀ i, 0 < i → i ≤ t.nodeCount → ∃ e f : Edge, s.Copies t e f ∧ f.index = i

/-- A store has all its own nodes. -/
theorem Founded.covers (h : s.Founded) (hroom : Diagram.HasRoom s) : s.Covers s :=
  ⟨hroom, fun i hpos hi => ⟨⟨i, false, hi.trans_lt hroom⟩, ⟨i, false, hi.trans_lt hroom⟩,
    .of_has h ⟨hpos, hi⟩, rfl⟩⟩

theorem Covers.mono (h : Covers s t) (hle : s ≤ s') : Covers s' t :=
  ⟨h.room, fun i hpos hi => by
    obtain ⟨e, f, he, hf⟩ := h.exists_copy i hpos hi
    exact ⟨e, f, he.mono hle le_rfl, hf⟩⟩

theorem Covers.of_nodes_eq (h : Covers s t) (hnodes : t'.nodes = t.nodes) : Covers s t' := by
  have hcount : t'.nodeCount = t.nodeCount := by rw [nodeCount, nodeCount, hnodes]
  refine ⟨hcount.trans_lt h.room, fun i hpos hi => ?_⟩
  obtain ⟨e, f, he, hf⟩ := h.exists_copy i hpos (hcount ▸ hi)
  exact ⟨e, f, he.mono le_rfl (le_of_nodes_eq hnodes), hf⟩

/-- If the second store is full up to one position, then there is a copy of every edge: no position
of the first store is left for a node that has none. -/
theorem Covers.exists_of_full (h : Covers s t) (hs : s.Founded) (ht : t.Founded)
    (hfull : Edge.positions ≤ t.nodeCount + 1) (he : s.Has e) : ∃ f, s.Copies t e f := by
  let Place := {i : Fin Edge.positions // 0 < i.val}
  have hcopy : ∀ i : Place, ∃ e f : Edge, s.Copies t e f ∧ f.index = i.1.val := fun i =>
    h.exists_copy i.1.val i.2 (by have := i.1.isLt; omega)
  choose origin copy hcopies hindex using hcopy
  let place (i : Place) : Place :=
    ⟨⟨(origin i).index, (origin i).bounded⟩, ((hcopies i).has_left hs).1⟩
  have hinjective : Function.Injective place := by
    intro i j hij
    have horigin : (origin i).index = (origin j).index :=
      congrArg (fun place : Place => place.1.val) hij
    have hcopy := ((hcopies i).index_eq_iff (hcopies j) hs ht).2 horigin
    rw [hindex, hindex] at hcopy
    exact Subtype.ext (Fin.ext hcopy)
  obtain ⟨i, hi⟩ := (Finite.injective_iff_surjective.1 hinjective) ⟨⟨e.index, e.bounded⟩, he.1⟩
  have horigin : (origin i).index = e.index := congrArg (fun place : Place => place.1.val) hi
  refine ⟨(copy i).regular.complementIf e.negated, ?_⟩
  have hregular : e = (origin i).regular.complementIf e.negated := by
    refine Edge.ext ?_ ?_
    · rw [Edge.complementIf_index]
      exact horigin.symm
    · rw [Edge.complementIf_negated]
      simp [Edge.regular]
  rw [hregular]
  simpa [Edge.regular] using (hcopies i).regular.complementIf e.negated

/-- If the second store is full up to one position, then it has the copy of every node. -/
theorem Covers.exists_node_of_full (h : Covers s t) (hs : s.Founded) (ht : t.Founded)
    (hfull : Edge.positions ≤ t.nodeCount + 1) (hv : v ≠ 0) (hlow : s.Copies t low low')
    (hhigh : s.Copies t high high') (hmark : e.negated = false)
    (hnode : s.node? e.index = some ⟨v, low, high⟩) :
    ∃ i, t.node? i = some ⟨v, low', high'⟩ := by
  obtain ⟨f, hf⟩ := h.exists_of_full hs ht hfull (has_of_node? hnode)
  have hne : (⟨v, low, high⟩ : Node) ≠ .terminal := fun heq => hv (congrArg Node.var heq)
  have hi := Diagram.index_ne_one_of_node? hs hne hnode
  have hvar := hf.var_eq hi
  have hflow := hf.low hs ht
  have hfhigh := hf.high hs ht
  rw [Store.low, Store.low, hf.negated_eq, hmark, node_of_node? hnode] at hflow
  rw [Store.high, Store.high, hf.negated_eq, hmark, node_of_node? hnode] at hfhigh
  rw [node_of_node? hnode] at hvar
  refine ⟨f.index, (hf.has_right ht).node?.trans (congrArg some ?_)⟩
  have hl := hflow.unique ht hlow
  have hh := hfhigh.unique ht hhigh
  generalize t.node f.index = node at hvar hl hh ⊢
  cases node
  exact congr (congrArg₂ Node.mk hvar hl) hh

/-- One further node, with a copy in the first store. -/
theorem Covers.adds (h : Covers s t) {node : Node} (hadds : t.Adds node t')
    (hroom : t.nodeCount + 1 < Edge.positions) (hf : s.Copies t' e f)
    (hindex : f.index = t.nodeCount + 1) : Covers s t' := by
  have hcount : t'.nodeCount = t.nodeCount + 1 := by
    rw [nodeCount, UniqueTable.size, hadds.values_eq, Array.size_push]
    rfl
  refine ⟨hcount.trans_lt hroom, fun i hpos hi => ?_⟩
  rw [hcount] at hi
  obtain hi | rfl := Nat.lt_or_eq_of_le hi
  · obtain ⟨e, f, he, hf⟩ := h.exists_copy i hpos (Nat.lt_succ_iff.1 hi)
    exact ⟨e, f, he.mono le_rfl hadds.le, hf⟩
  · exact ⟨e, f, hf, hindex⟩

end Store

namespace Diagram

variable {s t : Store} {e low low' high high' : Edge} {v : Var} {α β : Type}
  {triple triple' tr tr' lower lower' upper upper' : Triple}

/-- On the second store the operation answers as described, and the first store goes on to hold all
nodes. -/
def Catches (op : DiagramM α) (s t : Store) (post : α → Store → Prop) : Prop :=
  ∃ answer later, op.run.run t = (.ok answer, later) ∧ later.Replayable ∧ s.Covers later ∧
    t ≤ later ∧ post answer later

theorem catches_pure (ht : t.Replayable) (hc : s.Covers t) {answer : α} {post : α → Store → Prop}
    (hpost : post answer t) : Catches (pure answer) s t post :=
  ⟨answer, t, rfl, ht, hc, le_rfl, hpost⟩

theorem Catches.bind {op : DiagramM α} {next : α → DiagramM β} {mid : α → Store → Prop}
    {post : β → Store → Prop} (h : Catches op s t mid)
    (hnext : ∀ answer later, later.Replayable → s.Covers later → t ≤ later → mid answer later →
      Catches (next answer) s later post) : Catches (op >>= next) s t post := by
  obtain ⟨answer, later, hrun, hlater, hc, hle, hmid⟩ := h
  obtain ⟨answer', last, hrun', hlast, hc', hle', hpost⟩ := hnext answer later hlater hc hle hmid
  exact ⟨answer', last, (run_bind_of_ok hrun next).trans hrun', hlast, hc', hle.trans hle', hpost⟩

theorem Catches.map {op : DiagramM α} {f : α → β} {post : β → Store → Prop}
    (h : Catches op s t fun answer later => post (f answer) later) : Catches (f <$> op) s t post := by
  rw [← bind_pure_comp]
  exact h.bind fun _ _ hlater hc _ hpost => catches_pure hlater hc hpost

theorem catches_of_stays {op : DiagramM α} {answer : α} {post : α → Store → Prop}
    (h : Stays op t answer) (hc : s.Covers t) (hpost : ∀ later, t ≤ later → post answer later) :
    Catches op s t post := by
  obtain ⟨later, hrun, hnodes, hlater⟩ := h
  have hle := Store.le_of_nodes_eq hnodes
  exact ⟨answer, later, hrun, hlater, hc.of_nodes_eq hnodes, hle, hpost later hle⟩

/-- A node that the first store has is found or added. -/
theorem catches_reduced (hs : s.Founded) (ht : t.Replayable) (hc : s.Covers t) (hv : v ≠ 0)
    (hmark : high'.negated = false) (hlow : s.Copies t low low') (hhigh : s.Copies t high high')
    (h : s.Decided v low high e) :
    Catches (reduced v low' high') s t fun f later => later.Decided v low' high' f := by
  unfold reduced
  split
  · next heq => exact catches_pure ht hc ((if_pos heq).mpr rfl)
  next hne =>
  have hdiffer := mt (hlow.eq_iff hhigh hs ht.toFounded).2 hne
  have hadmits : t.Admits ⟨v, low', high'⟩ :=
    ⟨hv, hmark, hne, hlow.has_right ht.toFounded, hhigh.has_right ht.toFounded⟩
  have hnode := h
  unfold Store.Decided at hnode
  rw [if_neg hdiffer] at hnode
  cases hfind : t.nodes.find? Node.key ⟨v, low', high'⟩ with
  | some i =>
    have hi : t.node? i = some _ := UniqueTable.value?_of_find? hfind
    have hin : 0 < i ∧ i ≤ t.nodeCount :=
      Store.node?_isSome_iff.1 (Option.isSome_iff_exists.2 ⟨_, hi⟩)
    let f : Edge := ⟨i, false, hin.2.trans_lt hc.room⟩
    refine ⟨f, t, ?_, ht, hc, le_rfl, (if_neg hne).mpr ⟨rfl, hi⟩⟩
    change t.intern _ = _
    rw [intern_of_find? hfind]
    exact congrArg (·, t) (edgeTo_index (e := f) rfl)
  | none =>
    have hnew := ht.indexed.not_mem_of_find? hadmits.ne_terminal hfind
    have hroom : t.nodeCount + 1 < Edge.positions := by
      by_contra hfull
      obtain ⟨i, hi⟩ := hc.exists_node_of_full hs ht.toFounded (Nat.not_lt.1 hfull) hv hlow hhigh
        hnode.1 hnode.2
      exact hnew i hi
    obtain ⟨later, hintern, hadds⟩ := intern_of_not_find? hadmits.ne_terminal ht.indexed hfind
    let f : Edge := ⟨t.nodeCount + 1, false, hroom⟩
    have hdecided : later.Decided v low' high' f :=
      (if_neg hne).mpr ⟨rfl, (hadds.node?_eq _).trans (if_pos rfl)⟩
    have hlater := hadds.replayable ht hadmits
    have hcopies := h.copies hs hlater.toFounded hdecided hv (hlow.mono le_rfl hadds.le)
      (hhigh.mono le_rfl hadds.le)
    refine ⟨f, later, ?_, hlater, hc.adds hadds hroom hcopies rfl, hadds.le, hdecided⟩
    change t.intern _ = _
    rw [hintern]
    exact congrArg (·, later) (edgeTo_index (e := f) rfl)

theorem catches_branch (hs : s.Founded) (ht : t.Replayable) (hc : s.Covers t)
    (hlow : s.Copies t low low') (hhigh : s.Copies t high high') (h : s.Branches v low high e) :
    Catches (branch v low' high') s t fun f later => later.Branches v low' high' f := by
  obtain ⟨hv, hd⟩ := h
  rw [← hhigh.negated_eq] at hd
  unfold branch Store.Branches
  rw [if_neg hv]
  split
  · next hmark =>
    rw [if_pos hmark] at hd
    apply (catches_reduced hs ht hc hv (by simp [hmark]) hlow.neg hhigh.neg hd).bind
    intro f later hlater hc' _ hf
    exact catches_pure hlater hc' ⟨hv, (neg_neg f).symm ▸ hf⟩
  · next hmark =>
    rw [if_neg hmark] at hd
    obtain ⟨f, later, hrun, hlater, hc', hle, hf⟩ :=
      catches_reduced hs ht hc hv (by simpa using hmark) hlow hhigh hd
    exact ⟨f, later, hrun, hlater, hc', hle, hv, hf⟩

theorem catches_combine {depth : Nat} (hs : s.Founded) (ht : t.Replayable) (hc : s.Covers t)
    (ih : ∀ {t : Store} {triple triple' : Triple} {e : Edge}, t.Replayable → s.Covers t →
      s.CopiesTriple t triple triple' → triple'.weight < depth → s.Replays triple e →
      Catches (iteWithin depth triple') s t fun f later => later.Replays triple' f)
    (htriple : s.CopiesTriple t tr tr') (hparts : s.Parts tr lower upper)
    (hparts' : t.Parts tr' lower' upper') (hd : tr'.weight ≤ depth) {low high : Edge}
    (hlow : s.Replays lower low) (hhigh : s.Replays upper high)
    (hbranch : s.Branches (s.topVar tr) low high e) :
    Catches (combine depth (t.topVar tr') tr' lower' upper') s t
      fun f later => later.Expands tr' f := by
  have hhalves := hparts'.halves ht.toFounded
  have hlt := hhalves.lower_lt
  have hut := hhalves.upper_lt
  obtain ⟨hlower, hupper⟩ := hparts.copies hs ht.toFounded hparts' htriple
  unfold combine
  apply (ih ht hc hlower (by omega) hlow).bind
  intro low' t₁ ht₁ hc₁ hle₁ hlow'
  have hupper₁ := hupper.mono le_rfl hle₁
  apply (ih ht₁ hc₁ hupper₁ (by omega) hhigh).bind
  intro high' t₂ ht₂ hc₂ hle₂ hhigh'
  have hlows := (hlow.copies hs ht₁.toFounded hlow' (hlower.mono le_rfl hle₁)).mono le_rfl hle₂
  have hhighs := hhigh.copies hs ht₂.toFounded hhigh' (hupper₁.mono le_rfl hle₂)
  rw [htriple.topVar_eq]
  apply (catches_branch hs ht₂ hc₂ hlows hhighs hbranch).bind
  intro f t₃ ht₃ hc₃ hle₃ hf
  have hle := hle₁.trans (hle₂.trans hle₃)
  have hexpands : t₃.Expands tr' f :=
    ⟨lower', upper', low', high', hparts'.mono hle, hlow'.mono (hle₂.trans hle₃), hhigh'.mono hle₃,
      by rw [hparts'.operands.topVar_eq hle, htriple.topVar_eq]; exact hf⟩
  have hremember : Catches (remember tr' f) s t₃ fun _ _ => True :=
    catches_of_stays (stays_remember ht₃ hexpands) hc₃ fun _ _ => trivial
  apply hremember.bind
  intro _ t₄ ht₄ hc₄ hle₄ _
  exact catches_pure ht₄ hc₄ (hexpands.mono hle₄)

/-- What the first store has the answer for is answered on the second. The induction is on the bound
of the depth there. -/
theorem catches_iteWithin (depth : Nat) (hs : s.Founded) (ht : t.Replayable) (hc : s.Covers t)
    (htriple : s.CopiesTriple t triple triple') (hd : triple'.weight < depth)
    (h : s.Replays triple e) :
    Catches (iteWithin depth triple') s t fun f later => later.Replays triple' f := by
  induction depth generalizing t triple triple' e with
  | zero => omega
  | succ depth ih =>
    have hstandard := htriple.standard hs ht.toFounded
    have hkey := ht.toFounded.standardizes (htriple.has_right ht.toFounded)
    cases h with
    | settled hstd =>
      rw [hstd] at hstandard
      cases hstd' : triple'.standard with
      | settled f =>
        rw [iteWithin, hstd']
        exact catches_pure ht hc (.settled hstd')
      | reduced =>
        rw [hstd'] at hstandard
        cases hstandard
    | @reduced _ tr lower upper mark low high e hstd hparts hlow hhigh hbranch =>
      rw [hstd] at hstandard
      cases hstd' : triple'.standard with
      | settled =>
        rw [hstd'] at hstandard
        cases hstandard
      | reduced tr' mark' =>
        rw [hstd'] at hstandard hkey
        obtain ⟨htr', hcond', hweight, -⟩ := hkey
        cases hstandard with
        | reduced htr =>
          have hresolve : Catches (resolve depth tr') s t fun f later => later.Expands tr' f := by
            cases hfind : t.computed.find? Triple.key tr' with
            | some f =>
              have hle := t.le_lookedUp tr'
              exact ⟨f, _, resolve_of_find? depth hfind, ht.lookedUp tr', hc.of_nodes_eq rfl, hle,
                (ht.expands_of_find? hfind).mono hle⟩
            | none =>
              obtain ⟨lower', upper', hparts'⟩ := ht.toFounded.exists_parts htr' hcond'
              have hle := t.le_lookedUp tr'
              obtain ⟨f, later, hrun, hlater, hc', hle', hf⟩ :=
                catches_combine hs (ht.lookedUp tr') (hc.of_nodes_eq rfl) ih (htr.mono le_rfl hle)
                  hparts (hparts'.mono hle) (by omega) hlow hhigh hbranch
              rw [htr'.topVar_eq hle] at hrun
              exact ⟨f, later, (resolve_of_miss depth hfind hparts').trans hrun, hlater, hc',
                hle.trans hle', hf⟩
          rw [iteWithin_of_reduced depth hstd']
          refine Catches.map ?_
          obtain ⟨f, later, hrun, hlater, hc', hle', hf⟩ := hresolve
          exact ⟨f, later, hrun, hlater, hc', hle', hf.replays hstd'⟩

end Diagram

end PlanningGame
