import Mathlib
import PlanningGame.Proofs.Diagram.Dependence

/-!
# Replacing variables in ordered diagrams

All variables are replaced at the same time, whatever the images test. To fix a variable or to
replace a single one is a special case with a procedure of its own. As the results are ordered and
have one function, these procedures lead to one edge, in whatever order they are called.
-/
namespace PlanningGame

open Diagram

namespace Store

variable {s : Store} {g : Edge} {images : Substitution}
  {γ : Valuation → Bool} {ψ : Valuation → Valuation}

/-- The mapped variables take the values of their images and all others keep theirs, where the
images are ordered. -/
structure Replaces (store : Store) (images : Substitution) (ψ : Valuation → Valuation) :
    Prop where
  mapped : ∀ (v : Var) (image : Edge), images[v]? = some image →
    store.Depicts image fun a => ψ a v = true
  unmapped : ∀ v : Var, images[v]? = none → ∀ a, ψ a v = a v

/-- There is no other change of valuations to which the substitution leads. -/
theorem Replaces.replaced_eq (h : s.Replaces images ψ) : replaced s images = ψ := by
  funext a v
  unfold replaced
  split
  · next image hv => exact Bool.eq_iff_iff.2 ((h.mapped v image hv).eval_iff a)
  · next hv => exact (h.unmapped v hv a).symm

theorem replaces_replaced (h : ∀ (v : Var) (image : Edge), images[v]? = some image →
    s.Has image ∧ s.Ascends image) : s.Replaces images (replaced s images) where
  mapped v image hv := by
    obtain ⟨himage, hascends⟩ := h v image hv
    exact (himage.depicts hascends).congr fun a => by simp [replaced, hv]
  unmapped v hv a := by simp [replaced, hv]

/-- A single variable is replaced. -/
theorem replaces_single (hg : s.Depicts g fun a => γ a = true) (v : Var) :
    s.Replaces ((∅ : Substitution).insert v g) fun a => a.update v (γ a) where
  mapped w image hw := by
    rw [Std.TreeMap.getElem?_insert] at hw
    split at hw
    · next heq =>
      obtain rfl := Std.LawfulEqOrd.compare_eq_iff_eq.1 heq
      obtain rfl := Option.some.inj hw
      exact hg.congr fun a => by simp
    · simp at hw
  unmapped w hw a := by
    rw [Std.TreeMap.getElem?_insert] at hw
    split at hw
    · exact nomatch hw
    · next hne =>
      exact Valuation.update_of_ne a
        (fun heq => hne (Std.LawfulEqOrd.compare_eq_iff_eq.2 heq.symm)) _

theorem Founded.depicts_constant (h : s.Founded) (value : Bool) :
    s.Depicts (if value then .one else .zero) fun _ => value = true := by
  cases value
  · exact ⟨h.denotes_zero.congr fun _ => by simp, .terminal rfl⟩
  · exact ⟨h.denotes_one.congr fun _ => by simp, .terminal rfl⟩

end Store

namespace Diagram

open Store

variable {s t : Store} {e g : Edge} {v : Var} {images images' : Substitution}
  {φ γ : Valuation → Bool} {ψ : Valuation → Valuation}

/-- If each image has a copy, there is a substitution with these copies. -/
theorem exists_copiesMap
    (h : ∀ (v : Var) (image : Edge), images[v]? = some image → ∃ f, s.Copies t image f) :
    ∃ images' : Substitution, CopiesMap s t images images' := by
  have hcopy : ∀ image, (∃ v : Var, images[v]? = some image) → ∃ f, s.Copies t image f :=
    fun image ⟨v, hv⟩ => h v image hv
  have : Inhabited Edge := ⟨.one⟩
  choose! copy hcopy using hcopy
  refine ⟨images.map fun _ image => copy image, fun v => ?_⟩
  rw [Std.TreeMap.getElem?_map]
  cases hv : images[v]? with
  | some image => exact .some (hcopy image ⟨v, hv⟩)
  | none => exact .none

theorem CopiesMap.replaced_eq (h : CopiesMap s t images images') (hs : s.Founded) (ht : t.Founded) :
    replaced t images' = replaced s images := by
  funext a v
  have hv := h v
  unfold replaced
  generalize images[v]? = image at hv ⊢
  generalize images'[v]? = image' at hv ⊢
  cases hv with
  | some hcopy => exact hcopy.eval_eq hs ht a
  | none => rfl

theorem CopiesMap.hasImages (h : CopiesMap s t images images') (ht : t.Founded) :
    HasImages t images' := by
  intro v image' hv'
  have hv := h v
  rw [hv'] at hv
  generalize images[v]? = image at hv
  cases hv with
  | some hcopy => exact hcopy.has_right ht

section Answers

variable (hs : s.Replayable) (he : s.Depicts e fun a => φ a = true)
include hs he

/-- The mapped variables of an ordered diagram are replaced all at once. -/
theorem answers_substitute (himages : s.Replaces images ψ) :
    Answers Replayable (substitute e images) s fun r later =>
      later.Depicts r fun a => φ (ψ a) = true := by
  have hedges : ∀ f ∈ e :: images.toList.map Prod.snd, s.Has f ∧ s.Ascends f := by
    refine List.forall_mem_cons.2 ⟨⟨he.has, he.ascends⟩, List.forall_mem_map.2 fun p hp => ?_⟩
    have hp := himages.mapped _ _ (Std.TreeMap.mem_toList_iff_getElem?_eq_some.1 hp)
    exact ⟨hp.has, hp.ascends⟩
  obtain ⟨t, hst, ht, -, hcopies⟩ := exists_copies hedges hs.paired_blank sound_blank
  obtain ⟨⟨f, hf⟩, hcopies⟩ := List.forall_mem_cons.1 hcopies
  have hmapped : ∀ (v : Var) (image : Edge), images[v]? = some image → ∃ f, s.Copies t image f :=
    fun v image hv => List.forall_mem_map.1 hcopies (v, image)
      (Std.TreeMap.mem_toList_iff_getElem?_eq_some.2 hv)
  obtain ⟨images', himages'⟩ := exists_copiesMap hmapped
  have hfounded := hs.toFounded
  refine ((paced_substitute hst himages' hf).answers_depicts (ensures_substitute ht
    (himages'.hasImages ht.founded) (hf.has_right ht.founded))).weaken
      fun r later _ _ hr => hr.congr fun a => ?_
  rw [hf.eval_eq hfounded ht.founded, himages'.replaced_eq hfounded ht.founded,
    himages.replaced_eq, he.eval_iff]

/-- A variable of an ordered diagram is replaced by an ordered diagram. -/
theorem answers_compose (hg : s.Depicts g fun a => γ a = true) (hv : v ≠ 0) :
    Answers Replayable (compose e v g) s fun r later =>
      later.Depicts r fun a => φ (a.update v (γ a)) = true := by
  have hedges : ∀ f ∈ [e, g], s.Has f ∧ s.Ascends f := by
    rw [List.forall_mem_cons, List.forall_mem_singleton]
    exact ⟨⟨he.has, he.ascends⟩, hg.has, hg.ascends⟩
  obtain ⟨t, hst, ht, -, hcopies⟩ := exists_copies hedges hs.paired_blank sound_blank
  rw [List.forall_mem_cons, List.forall_mem_singleton] at hcopies
  obtain ⟨⟨f, hf⟩, g', hg'⟩ := hcopies
  have hfounded := hs.toFounded
  have hgamma : ∀ a, s.eval g a = γ a := fun a => Bool.eq_iff_iff.2 (hg.eval_iff a)
  refine ((paced_compose hst hf hg' v).answers_depicts (ensures_compose ht hv
    (hf.has_right ht.founded) (hg'.has_right ht.founded))).weaken
      fun r later _ _ hr => hr.congr fun a => ?_
  rw [hf.eval_eq hfounded ht.founded, hg'.eval_eq hfounded ht.founded, hgamma, he.eval_iff]

/-- A variable of an ordered diagram is fixed. -/
theorem answers_restrict (hv : v ≠ 0) (value : Bool) :
    Answers Replayable (restrict e v value) s fun r later =>
      later.Depicts r fun a => φ (a.update v value) = true := by
  obtain ⟨t, f, hst, ht, -, hf⟩ := he.ascends.exists_copy he.has hs.paired_blank sound_blank
  have hfounded := hs.toFounded
  refine ((paced_restrict hst hf v value).answers_depicts (ensures_restrict ht hv
    (hf.has_right ht.founded))).weaken fun r later _ _ hr => hr.congr fun a => ?_
  rw [hf.eval_eq hfounded ht.founded, he.eval_iff]

end Answers

end Diagram

namespace Manager

variable {sizes : TableSizes} {journal : Journal} {origin m : Manager}

/-- Both operations give an edge, unless positions run out, and whichever of them comes first, the
other one gives the same edge from then on. -/
structure Interchangeable (origin : Manager) (store : Store) (op op' : DiagramM Edge) : Prop where
  first : Answers Store.Replayable op store fun e later => Settled origin later op' e
  second : Answers Store.Replayable op' store fun e later => Settled origin later op e

theorem interchangeable_of_depicts (hcreate : create sizes journal = .ok origin) {store : Store}
    (hs : store.Replayable) {op op' : DiagramM Edge} {P : Valuation → Prop}
    (h : ∀ now, now.Replayable → store ≤ now →
      Answers Store.Replayable op now fun e later => later.Depicts e P)
    (h' : ∀ now, now.Replayable → store ≤ now →
      Answers Store.Replayable op' now fun e later => later.Depicts e P) :
    Interchangeable origin store op op' where
  first := (h store hs le_rfl).weaken fun _ _ hlater hle he =>
    settled_of_depicts hcreate hlater.toFounded he fun now hnow hle' =>
      h' now hnow (hle.trans hle')
  second := (h' store hs le_rfl).weaken fun _ _ hlater hle he =>
    settled_of_depicts hcreate hlater.toFounded he fun now hnow hle' =>
      h now hnow (hle.trans hle')

/-- The two variables and their exclusive disjunction, from their values on the tested variables. -/
theorem eval_crossed (a : Valuation) :
    crossed.store.eval (.ofFin 2) a = a 0x7FFFFFFF ∧
      crossed.store.eval (.ofFin 3) a = a 3 ∧
      crossed.store.eval (-Edge.ofFin 4) a = (a 3 != a 0x7FFFFFFF) := by
  have hs := leads_crossed.replayable create_crossed
  let pair (p q : Bool) : Valuation := fun v => if v = 3 then p else q
  have hpair : ∀ e : Edge, crossed.store.Has e →
      (∀ v ∈ crossed.store.support e, v = 3 ∨ v = 0x7FFFFFFF) →
      crossed.store.eval e a = crossed.store.eval e (pair (a 3) (a 0x7FFFFFFF)) := by
    intro e he hsupport
    refine hs.toFounded.eval_congr he fun v hv => ?_
    obtain rfl | rfl := hsupport v hv <;> simp [pair]
  have hy : ∀ p q, crossed.store.eval (.ofFin 2) (pair p q) = q := by decide +kernel
  have hx : ∀ p q, crossed.store.eval (.ofFin 3) (pair p q) = p := by decide +kernel
  have hf : ∀ p q, crossed.store.eval (-Edge.ofFin 4) (pair p q) = (p != q) := by
    decide +kernel
  have hsupporty : crossed.store.support (.ofFin 2) = [0x7FFFFFFF] := by decide +kernel
  have hsupportx : crossed.store.support (.ofFin 3) = [3] := by decide +kernel
  rw [hpair _ (has_crossed (by decide) (by decide)) (by simp [hsupporty]), hy,
    hpair _ (has_crossed (by decide) (by decide)) (by simp [hsupportx]), hx,
    hpair _ (has_crossed (by decide) (by decide)) (by simp [support_crossed]), hf]
  exact ⟨rfl, rfl, rfl⟩

end Manager

end PlanningGame
