import Mathlib
import PlanningGame.Proofs.Diagram.Kept
import PlanningGame.Proofs.Diagram.Support

/-!
# Diagrams on given variables

An operation tests no variable that is not tested in its operands, whatever the order of the
variables. A diagram may test a variable that does not matter, so this is more than its function
tells.
-/
namespace PlanningGame

namespace Store

/-- The edge is in the store, and the variables tested in it are among the given ones. -/
inductive Within (store : Store) (vars : Set Var) : Edge → Prop
  | terminal {e : Edge} (hi : e.index = 1) : Within store vars e
  | inner {e : Edge} {node : Node} (hnode : store.node? e.index = some node)
      (hvar : node.var ∈ vars) (hlow : Within store vars node.low)
      (hhigh : Within store vars node.high) : Within store vars e

variable {store later : Store} {vars : Set Var} {e : Edge} {v : Var} {j : Nat}

/-- Marks do not matter. -/
theorem Within.of_index_eq {f : Edge} (h : store.Within vars e) (heq : f.index = e.index) :
    store.Within vars f := by
  cases h with
  | terminal hi => exact .terminal (heq.trans hi)
  | inner hnode hvar hlow hhigh => exact .inner (heq ▸ hnode) hvar hlow hhigh

theorem Within.neg (h : store.Within vars e) : store.Within vars (-e) :=
  h.of_index_eq rfl

theorem Within.mono (h : store.Within vars e) (hle : store ≤ later) : later.Within vars e := by
  induction h with
  | terminal hi => exact .terminal hi
  | inner hnode hvar _ _ ihlow ihhigh => exact .inner (hle _ _ hnode) hvar ihlow ihhigh

theorem Within.has (h : store.Within vars e) (hf : store.Founded) : store.Has e := by
  cases h with
  | terminal hi =>
    rcases Edge.eq_of_index_eq_one hi with rfl | rfl
    · exact hf.has_one
    · exact hf.has_zero
  | inner hnode => exact has_of_node? hnode

theorem Within.low (h : store.Within vars e) (hf : store.Founded) :
    store.Within vars (store.low e) := by
  cases h with
  | terminal hi =>
    rw [hf.low_of_isTerminal hi]
    exact .terminal hi
  | inner hnode _ hlow => exact hlow.of_index_eq (by rw [low_index, node_of_node? hnode])

theorem Within.high (h : store.Within vars e) (hf : store.Founded) :
    store.Within vars (store.high e) := by
  cases h with
  | terminal hi =>
    rw [hf.high_of_isTerminal hi]
    exact .terminal hi
  | inner hnode _ _ hhigh => exact hhigh.of_index_eq (by rw [high_index, node_of_node? hnode])

theorem Within.var_mem (h : store.Within vars e) (hi : e.index ≠ 1) :
    (store.node e.index).var ∈ vars := by
  cases h with
  | terminal hterminal => exact absurd hterminal hi
  | inner hnode hvar => rwa [node_of_node? hnode]

theorem Within.level_mem (h : store.Within vars e) (hi : e.index ≠ 1) : store.level e ∈ vars :=
  level_of_inner hi ▸ h.var_mem hi

theorem Within.var_mem_of_descends (h : store.Within vars e) (hf : store.Founded)
    (hd : store.Descends e j) (hj : j ≠ 1) : (store.node j).var ∈ vars := by
  induction hd with
  | refl e => exact h.var_mem hj
  | low _ ih => exact ih (h.low hf) hj
  | high _ ih => exact ih (h.high hf) hj

/-- The variables of a diagram are among those that it is within. -/
theorem Within.mem_of_mem_support (h : store.Within vars e) (hf : store.Founded)
    (hv : v ∈ store.support e) : v ∈ vars := by
  obtain ⟨j, hj, rfl⟩ := mem_support_iff.1 hv
  obtain ⟨hne, hd⟩ := descends_of_mem_innerPositions hj
  exact h.var_mem_of_descends hf hd hne

/-- A diagram tests the variables of its support. -/
theorem Founded.within_of_support (hf : store.Founded) (he : store.Has e)
    (hsupport : ∀ v ∈ store.support e, v ∈ vars) : store.Within vars e := by
  have htested : ∀ j, store.Descends e j → j ≠ 1 → (store.node j).var ∈ vars := fun j hd hj =>
    hsupport _ (hf.mem_support_of_descends he hd hj)
  clear hsupport
  revert htested
  refine hf.edge_induction (motive := fun e => (∀ j, store.Descends e j → j ≠ 1 →
    (store.node j).var ∈ vars) → store.Within vars e) (fun e hi _ => .terminal hi) ?_ e he
  intro e he hi ihlow ihhigh htested
  have hlow := ihlow fun j hd => htested j (.low hd)
  have hhigh := ihhigh fun j hd => htested j (.high hd)
  refine .inner (he.node?) (htested _ (.refl e) hi) (hlow.of_index_eq ?_) (hhigh.of_index_eq ?_)
  · rw [low_index]
  · rw [high_index]

theorem Founded.within_univ (hf : store.Founded) (he : store.Has e) : store.Within .univ e :=
  hf.within_of_support he fun v _ => Set.mem_univ v

section Operands

variable {low high : Edge} {triple t lower upper : Triple}

theorem Decided.within (h : store.Decided v low high e) (hv : v ∈ vars)
    (hlow : store.Within vars low) (hhigh : store.Within vars high) : store.Within vars e := by
  unfold Decided at h
  split at h
  · exact h ▸ hlow
  · exact .inner h.2 hv hlow hhigh

theorem Branches.within (h : store.Branches v low high e) (hv : v ∈ vars)
    (hlow : store.Within vars low) (hhigh : store.Within vars high) : store.Within vars e := by
  have hdecided := h.2
  split at hdecided
  · exact (hdecided.within hv hlow.neg hhigh.neg).of_index_eq rfl
  · exact hdecided.within hv hlow hhigh

theorem Within.cofactors (h : store.Within vars e) (hf : store.Founded)
    (hok : store.cofactors e v = .ok (low, high)) :
    store.Within vars low ∧ store.Within vars high := by
  unfold Store.cofactors at hok
  split_ifs at hok
  · obtain ⟨rfl, rfl⟩ := Prod.mk.inj (Except.ok.inj hok)
    exact ⟨h, h⟩
  · obtain ⟨rfl, rfl⟩ := Prod.mk.inj (Except.ok.inj hok)
    exact ⟨h.low hf, h.high hf⟩

theorem Parts.within (h : store.Parts t lower upper) (hf : store.Founded)
    (ht : t.Every (store.Within vars)) :
    lower.Every (store.Within vars) ∧ upper.Every (store.Within vars) := by
  obtain ⟨hlow₁, hhigh₁⟩ := ht.condition.cofactors hf h.condition
  obtain ⟨hlow₂, hhigh₂⟩ := ht.positive.cofactors hf h.positive
  obtain ⟨hlow₃, hhigh₃⟩ := ht.negative.cofactors hf h.negative
  exact ⟨⟨hlow₁, hlow₂, hlow₃⟩, hhigh₁, hhigh₂, hhigh₃⟩

/-- An answer that is there tests what its operands test. -/
theorem Replays.within (h : store.Replays triple e) (hf : store.Founded)
    (ht : triple.Every (store.Within vars)) : store.Within vars e := by
  have hstandard {given : Triple} (hgiven : given.Every (store.Within vars)) :
      given.standard.Every (store.Within vars) :=
    every_standard (fun _ => .terminal) (fun _ => Within.neg) hgiven
  induction h with
  | settled hstd =>
    have hkey := hstandard ht
    rwa [hstd] at hkey
  | reduced hstd hparts _ _ hbranch ihlow ihhigh =>
    have hkey := hstandard ht
    rw [hstd] at hkey
    obtain ⟨hlower, hupper⟩ := hparts.within hf hkey
    have htop := topVar_of_every (Q := (· ∈ vars))
      ⟨hkey.condition.level_mem, hkey.positive.level_mem, hkey.negative.level_mem⟩ hparts.inner
    have he := hbranch.within htop (ihlow hlower) (ihhigh hupper)
    exact he.of_index_eq (Edge.complementIf_index _ _)

end Operands

end Store

namespace Diagram

variable {store : Store} {vars : Set Var} {e low high : Edge} {v : Var}

theorem keepsWithin_branch (hs : store.Replayable) (hv : v ∈ vars) (hlow : store.Within vars low)
    (hhigh : store.Within vars high) :
    Keeps (fun s e => s.Within vars e) (branch v low high) store :=
  (mirrors_branch hs.alike (hlow.has hs.toFounded) (hhigh.has hs.toFounded)).yields.weaken
    fun _ _ _ hle he => he.2.within hv (hlow.mono hle) (hhigh.mono hle)

theorem keepsWithin_foldlM_addLiteral (hs : store.Replayable) (he : store.Within vars e)
    {literals : List Int}
    (hliterals : ∀ l ∈ literals, ∃ v ∈ vars, ∃ value, l = Manager.signedLiteral v value) :
    Keeps (fun s e => s.Within vars e) (literals.foldlM addLiteral e) store := by
  induction literals generalizing store e with
  | nil => exact yields_pure hs he
  | cons l rest ih =>
    obtain ⟨⟨v, hv, value, rfl⟩, hrest⟩ := List.forall_mem_cons.1 hliterals
    have hadd : Keeps (fun s e => s.Within vars e)
        (addLiteral e (Manager.signedLiteral v value)) store := by
      unfold addLiteral
      rw [var_signedLiteral]
      dsimp only
      split
      · exact keepsWithin_branch hs hv he (.terminal rfl)
      · exact keepsWithin_branch hs hv (.terminal rfl) he
    rw [List.foldlM_cons]
    exact Yields.bind hadd fun _ _ hs' _ he' => ih hs' he' hrest

/-- The operations test no variables besides the given ones. -/
theorem kept_within (vars : Set Var) : Kept vars fun s e => s.Within vars e where
  has he hf := he.has hf
  mono he hle := he.mono hle
  terminal hi := .terminal hi
  neg he := he.neg
  replays hf ht he := he.within hf ht
  literal hs hv := keepsWithin_branch hs hv (.terminal rfl) (.terminal rfl)
  cube hs hliterals := by
    unfold cube
    refine (mirrors_note hs.alike _ _).yields.bind fun _ _ hs' _ _ => ?_
    refine keepsWithin_foldlM_addLiteral hs' (.terminal rfl) fun l hl => hliterals l ?_
    exact (List.mergeSort_perm _ _).mem_iff.1 hl

end Diagram

end PlanningGame
