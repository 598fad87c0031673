import Mathlib
import PlanningGame.Proofs.Failing
import PlanningGame.Proofs.Diagram.Lockstep
import PlanningGame.Proofs.Diagram.Sizes

/-!
# Ordered diagrams beside others

A diagram can be ordered in a store where others are not. Node by node, from the terminal up, it is
then built again in a store that was empty before and stays ordered. No operation tells a diagram
from its copy, so what is known of ordered stores holds of an ordered diagram in any store: it is
the only one of its function, and it is quantified exactly.
-/
namespace PlanningGame

open Diagram

/-- A store with nothing but the terminal. -/
def Store.blank : Store :=
  ⟨⟨#[.terminal], #[[], []]⟩, { slots := #[none, none] }, {}⟩

namespace Store

variable {s s' t : Store} {e f : Edge} {v w : Var}

theorem create_eq_blank : create ⟨1, 1⟩ {} = .ok blank :=
  rfl

theorem sound_blank : blank.Sound :=
  sound_of_create create_eq_blank

theorem replayable_blank : blank.Replayable :=
  replayable_of_create create_eq_blank

theorem hasRoom_blank : HasRoom blank :=
  show 1 < Edge.positions by decide

theorem Replayable.paired_blank {store : Store} (h : store.Replayable) : store.Paired blank := by
  refine ⟨h, replayable_blank, hasRoom_blank, fun i hpos hi => ?_⟩
  have hone : i = 1 := Nat.le_antisymm hi hpos
  exact ⟨.one, .one, .terminal rfl, hone.symm⟩

/-- Variables increase on every path from the edge to the terminal. -/
inductive Ascends (store : Store) : Edge → Prop
  | terminal {e : Edge} : e.index = 1 → Ascends store e
  | inner {e : Edge} : e.index ≠ 1 → store.Below (store.node e.index).var (store.low e) →
      store.Below (store.node e.index).var (store.high e) → Ascends store (store.low e) →
      Ascends store (store.high e) → Ascends store e

instance : Decidable (s.Below v e) :=
  inferInstanceAs (Decidable (e.index = 1 ∨ v < (s.node e.index).var))

/-- Whether variables increase on every path, found out within a bound on the depth. -/
def ascendsWithin (store : Store) : Nat → Edge → Bool
  | 0, _ => false
  | depth + 1, e =>
    e.isTerminal || (decide (store.Below (store.node e.index).var (store.low e)) &&
      decide (store.Below (store.node e.index).var (store.high e)) &&
      store.ascendsWithin depth (store.low e) && store.ascendsWithin depth (store.high e))

theorem ascends_of_ascendsWithin (depth : Nat) (h : s.ascendsWithin depth e = true) :
    s.Ascends e := by
  induction depth generalizing e with
  | zero => exact absurd h (by simp [ascendsWithin])
  | succ depth ih =>
    by_cases hi : e.index = 1
    · exact .terminal hi
    · rw [ascendsWithin, Bool.eq_false_iff.2 (mt Edge.isTerminal_iff.1 hi)] at h
      simp only [Bool.false_or, Bool.and_eq_true, decide_eq_true_eq] at h
      obtain ⟨⟨⟨hbelow, hbelow'⟩, hlow⟩, hhigh⟩ := h
      exact .inner hi hbelow hbelow' (ih hlow) (ih hhigh)

/-- In an ordered store all diagrams are ordered. -/
theorem Reduced.ascends (h : s.Reduced) (he : s.Has e) : s.Ascends e :=
  h.founded.edge_induction (motive := s.Ascends) (fun _ hi => .terminal hi)
    (fun _ he hi hlow hhigh => .inner hi (h.low_below he hi) (h.high_below he hi) hlow hhigh) e he

/-- A growing store keeps diagrams ordered. -/
theorem Ascends.mono (h : s.Ascends e) (hs : s.Founded) (he : s.Has e) (hle : s ≤ s') :
    s'.Ascends e := by
  induction h with
  | terminal hi => exact .terminal hi
  | inner hi hbelow hbelow' _ _ ihlow ihhigh =>
    have hlow := hs.has_low he
    have hhigh := hs.has_high he
    refine .inner hi ?_ ?_ ?_ ?_
    · rw [he.low_eq hle, he.node_eq hle]
      exact (hlow.below_iff hle).2 hbelow
    · rw [he.high_eq hle, he.node_eq hle]
      exact (hhigh.below_iff hle).2 hbelow'
    · rw [he.low_eq hle]
      exact ihlow hlow
    · rw [he.high_eq hle]
      exact ihhigh hhigh

theorem Ascends.low (h : s.Ascends e) (hs : s.Founded) : s.Ascends (s.low e) := by
  cases h with
  | terminal hi =>
    rw [hs.low_of_isTerminal hi]
    exact .terminal hi
  | inner _ _ _ hlow _ => exact hlow

theorem Ascends.high (h : s.Ascends e) (hs : s.Founded) : s.Ascends (s.high e) := by
  cases h with
  | terminal hi =>
    rw [hs.high_of_isTerminal hi]
    exact .terminal hi
  | inner _ _ _ _ hhigh => exact hhigh

theorem Ascends.neg (h : s.Ascends e) : s.Ascends (-e) := by
  induction h with
  | terminal hi => exact .terminal hi
  | inner hi hbelow hbelow' _ _ ihlow ihhigh =>
    rw [← low_neg] at ihlow
    rw [← high_neg] at ihhigh
    refine .inner hi ?_ ?_ ihlow ihhigh
    · rwa [low_neg]
    · rwa [high_neg]

theorem Ascends.of_index_eq (h : s.Ascends e) (heq : f.index = e.index) : s.Ascends f := by
  by_cases hmark : f.negated = e.negated
  · exact Edge.ext heq hmark ▸ h
  · have hneg : f = -e := Edge.ext heq (Bool.eq_not.2 hmark)
    exact hneg ▸ h.neg

/-- A variable above all those of an ordered diagram does not matter. -/
theorem Ascends.ignores_of_below (h : s.Ascends e) (hs : s.Founded) (he : s.Has e)
    (hb : s.Below v e) (hw : w ≤ v) : s.Ignores e w := by
  induction h generalizing v with
  | terminal hi =>
    intro a value
    obtain rfl | rfl := Edge.eq_of_index_eq_one hi <;> simp
  | inner hi hbelow hbelow' _ _ ihlow ihhigh =>
    have hlt := UInt32.lt_of_le_of_lt hw (hb.resolve_left hi)
    intro a value
    rw [hs.eval_inner he hi, hs.eval_inner he hi,
      Valuation.update_of_ne a (UInt32.ne_of_lt hlt).symm,
      ihlow (hs.has_low he) hbelow (UInt32.le_of_lt hlt),
      ihhigh (hs.has_high he) hbelow' (UInt32.le_of_lt hlt)]

namespace Copies

theorem below_iff (h : s.Copies t e f) : t.Below v f ↔ s.Below v e := by
  unfold Below
  rw [h.index_eq_one_iff]
  refine or_congr_right' fun hi => ?_
  rw [h.var_eq hi]

/-- What has an ordered copy is ordered. -/
theorem ascends (h : s.Copies t e f) (hf : t.Ascends f) : s.Ascends e := by
  induction h with
  | terminal hi => exact .terminal hi
  | inner _ _ hi hi' _ hvar hlow hhigh ihlow ihhigh =>
    cases hf with
    | terminal hone => exact absurd hone hi'
    | inner _ hbelow hbelow' hl hh =>
      rw [hvar, hlow.below_iff] at hbelow
      rw [hvar, hhigh.below_iff] at hbelow'
      exact .inner hi hbelow hbelow' (ihlow hl) (ihhigh hh)

theorem denotes {P : Valuation → Prop} (h : s.Copies t e f) (hs : s.Founded) (ht : t.Founded)
    (he : s.Denotes e P) : t.Denotes f P :=
  ⟨h.has_right ht, fun a => by rw [h.eval_eq hs ht, he.eval_iff]⟩

end Copies

/-- An edge to an inner node is what a decision between its branches leads to. -/
theorem Founded.branches (h : s.Founded) (he : s.Has e) (hi : e.index ≠ 1) :
    s.Branches (s.node e.index).var (s.low e) (s.high e) e := by
  have w := h.decides he hi
  have hdecided : ∀ g : Edge, g.index = e.index → g.negated = false →
      s.Decided (s.node e.index).var (s.node e.index).low (s.node e.index).high g := by
    intro g hg hmark
    unfold Decided
    rw [if_neg w.low_ne_high, hg]
    exact ⟨hmark, he.node?⟩
  refine ⟨w.var_ne_zero, ?_⟩
  unfold low high
  rw [Edge.complementIf_negated, w.high_unmarked]
  cases hmark : e.negated
  · exact hdecided e rfl hmark
  · simpa using hdecided (-e) rfl (by simp [hmark])

namespace Ascends

/-- An ordered diagram has a copy in an ordered store. The branches are built first, and the copy of
the high branch is built in the store that has the copy of the low one. -/
theorem exists_copy (h : s.Ascends e) (he : s.Has e) (hst : s.Paired t) (ht : t.Sound) :
    ∃ t' f, s.Paired t' ∧ t'.Sound ∧ t ≤ t' ∧ s.Copies t' e f := by
  have hs := hst.left.toFounded
  induction h generalizing t with
  | @terminal e hi => exact ⟨t, e, hst, ht, le_rfl, .terminal hi⟩
  | @inner e hi hbelow hbelow' _ _ ihlow ihhigh =>
    obtain ⟨t₁, low, hst₁, ht₁, hle₁, hlow⟩ := ihlow (hs.has_low he) hst ht
    obtain ⟨t₂, high, hst₂, ht₂, hle₂, hhigh⟩ := ihhigh (hs.has_high he) hst₁ ht₁
    replace hlow := hlow.mono le_rfl hle₂
    have hbranches := hs.branches he hi
    obtain ⟨f, t₃, hrun, hreplayable, hcovers, hle₃, hf⟩ :=
      catches_branch hs hst₂.right hst₂.covers hlow hhigh hbranches
    obtain ⟨ht₃, -, -⟩ := (ensures_branch ht₂ hbranches.1 (hlow.has_right ht₂.founded).denotes
      (hhigh.has_right ht₂.founded).denotes
      fun _ => ⟨hlow.below_iff.2 hbelow, hhigh.below_iff.2 hbelow'⟩).of_run hrun
    refine ⟨t₃, f, ⟨hst.left, hreplayable, hcovers⟩, ht₃, hle₁.trans (hle₂.trans hle₃), ?_⟩
    exact hbranches.copies hs ht₃.founded hf (hlow.mono le_rfl hle₃) (hhigh.mono le_rfl hle₃)

/-- Ordered diagrams with one function are equal, whatever else is in the store. -/
theorem eq_of_denotes (h : s.Ascends e) (h' : s.Ascends f) (hs : s.Replayable)
    {P : Valuation → Prop} (he : s.Denotes e P) (hf : s.Denotes f P) : e = f := by
  obtain ⟨t₁, e', hst₁, ht₁, -, hcopy⟩ := h.exists_copy he.has hs.paired_blank sound_blank
  obtain ⟨t₂, f', hst₂, ht₂, hle, hcopy'⟩ := h'.exists_copy hf.has hst₁ ht₁
  replace hcopy := hcopy.mono le_rfl hle
  have he' := hcopy.denotes hs.toFounded ht₂.founded he
  have hf' := hcopy'.denotes hs.toFounded ht₂.founded hf
  exact (hcopy.eq_iff hcopy' hs.toFounded ht₂.founded).1
    (he'.eq_of_iff hf' ht₂.toReduced fun _ => Iff.rfl)

/-- The constants are the only ordered diagrams that are never true, or always. -/
theorem eq_zero_iff (h : s.Ascends e) (hs : s.Replayable) (he : s.Has e) :
    e = .zero ↔ ∀ a, s.eval e a = false := by
  constructor
  · rintro rfl a
    exact eval_zero
  · intro hfalse
    exact h.eq_of_denotes (.terminal rfl) hs (he.denotes.congr fun a => by simp [hfalse a])
      hs.denotes_zero

theorem eq_one_iff (h : s.Ascends e) (hs : s.Replayable) (he : s.Has e) :
    e = .one ↔ ∀ a, s.eval e a = true := by
  constructor
  · rintro rfl a
    exact eval_one
  · intro htrue
    exact h.eq_of_denotes (.terminal rfl) hs (he.denotes.congr fun a => by simp [htrue a])
      hs.denotes_one

end Ascends

/-- Ordered diagrams have copies in one ordered store. -/
theorem exists_copies {edges : List Edge} (hedges : ∀ e ∈ edges, s.Has e ∧ s.Ascends e)
    (hst : s.Paired t) (ht : t.Sound) :
    ∃ t', s.Paired t' ∧ t'.Sound ∧ t ≤ t' ∧ ∀ e ∈ edges, ∃ f, s.Copies t' e f := by
  induction edges generalizing t with
  | nil => exact ⟨t, hst, ht, le_rfl, by simp⟩
  | cons e rest ih =>
    obtain ⟨⟨he, hascends⟩, hrest⟩ := List.forall_mem_cons.1 hedges
    obtain ⟨t₁, f, hst₁, ht₁, hle₁, hf⟩ := hascends.exists_copy he hst ht
    obtain ⟨t₂, hst₂, ht₂, hle₂, hcopies⟩ := ih hrest hst₁ ht₁
    exact ⟨t₂, hst₂, ht₂, hle₁.trans hle₂,
      List.forall_mem_cons.2 ⟨⟨f, hf.mono le_rfl hle₂⟩, hcopies⟩⟩

/-- The value of the function changes with the variable under some valuation. -/
def DependsOn (store : Store) (e : Edge) (v : Var) : Prop :=
  ∃ a : Valuation, store.eval e (a.update v (!a v)) ≠ store.eval e a

theorem dependsOn_iff_not_ignores : s.DependsOn e v ↔ ¬ s.Ignores e v := by
  constructor
  · rintro ⟨a, hne⟩ hig
    exact hne (hig a _)
  · intro hig
    by_contra hnone
    refine hig fun a value => ?_
    obtain heq | heq : value = a v ∨ value = !a v := by cases value <;> cases a v <;> simp
    · rw [heq, Valuation.update_eq_self]
    · rw [heq]
      exact by_contra fun hne => hnone ⟨a, hne⟩

/-- An ordered diagram tests the variables that it depends on, as its copy in an ordered store
does. -/
theorem Ascends.mem_support_iff (h : s.Ascends e) (hs : s.Replayable) (he : s.Has e) :
    v ∈ s.support e ↔ s.DependsOn e v := by
  obtain ⟨t, f, -, ht, -, hcopy⟩ := h.exists_copy he hs.paired_blank sound_blank
  have hfounded := hs.toFounded
  have hsupport := ht.toReduced.mem_support_iff_not_ignores (v := v) (hcopy.has_right ht.founded)
  rw [hcopy.support_eq hfounded ht.founded, ← dependsOn_iff_not_ignores] at hsupport
  unfold DependsOn at hsupport ⊢
  simpa only [hcopy.eval_eq hfounded ht.founded] using hsupport

/-- The edge leads to an ordered diagram, which stands for the set. -/
structure Depicts (store : Store) (e : Edge) (P : Valuation → Prop) : Prop
    extends Denotes store e P where
  ascends : store.Ascends e

theorem Has.depicts (he : s.Has e) (h : s.Ascends e) : s.Depicts e fun a => s.eval e a = true :=
  ⟨he.denotes, h⟩

namespace Depicts

variable {P Q : Valuation → Prop}

theorem congr (h : s.Depicts e P) (hPQ : ∀ a, P a ↔ Q a) : s.Depicts e Q :=
  ⟨h.toDenotes.congr hPQ, h.ascends⟩

theorem mono (h : s.Depicts e P) (hs : s.Founded) (hle : s ≤ s') : s'.Depicts e P :=
  ⟨h.toDenotes.mono hs hle, h.ascends.mono hs h.has hle⟩

/-- A set has one ordered diagram. -/
theorem eq (h : s.Depicts e P) (h' : s.Depicts f P) (hs : s.Replayable) : e = f :=
  h.ascends.eq_of_denotes h'.ascends hs h.toDenotes h'.toDenotes

end Depicts

end Store

namespace Diagram

open Store (Paired)

variable {s t : Store} {α α' : Type} {e : Edge} {vars : List Var}

/-- An operation that ends alike in an ordered store has an answer to which one belongs there. -/
theorem Paced.answers {op : DiagramM α} {op' : DiagramM α'} {post : α → α' → Store → Store → Prop}
    {post' : α' → Store → Prop} (h : Paced op op' s t post)
    (h' : Answers Store.Sound op' t post') :
    Answers Store.Replayable op s fun answer s' =>
      ∃ answer' t', s'.Paired t' ∧ t'.Sound ∧ t ≤ t' ∧ post answer answer' s' t' ∧
        post' answer' t' := by
  refine ⟨h.completes h'.completes, fun answer s' hrun => ?_⟩
  obtain ⟨answer', t', hrun', hpaired, hle', hpost⟩ := h.exists_answer hrun
  obtain ⟨hsound, -, hpost'⟩ := h'.yields answer' t' hrun'
  exact ⟨hpaired.left, h.le_of_answer hrun, answer', t', hpaired, hsound, hle', hpost, hpost'⟩

/-- If an operation fails in an ordered store only when it is full, it fails so beside other
diagrams. -/
theorem Paced.isFull_of_error {op : DiagramM α} {op' : DiagramM α'} {failure : Failure}
    {later : Store} {post : α → α' → Store → Store → Prop} {post' : α' → Store → Prop}
    (h : Paced op op' s t post) (h' : Concludes Store.Sound op' t post' IsFull)
    (hrun : op.run.run s = (.error failure, later)) : IsFull failure later := by
  have hfails := h'.fails
  unfold Paced Lockstep at h
  rw [hrun] at h
  generalize op'.run.run t = right at h hfails
  cases h with
  | full hfull => exact ⟨rfl, Nat.not_lt.1 hfull⟩
  | failed hpaired => exact absurd hpaired.covers.room (Nat.not_lt.2 (hfails _ rfl).2)

/-- The edge stands for the set and is ordered. The variables neither matter to it nor are they
tested below it. -/
structure Frees (store : Store) (vars : List Var) (e : Edge) (P : Valuation → Prop) : Prop where
  denotes : store.Denotes e P
  ascends : store.Ascends e
  ignores : ∀ v ∈ vars, store.Ignores e v
  not_mem_support : ∀ v ∈ vars, v ∉ store.support e

theorem Frees.congr {P Q : Valuation → Prop} (h : Frees s vars e P) (hPQ : ∀ a, P a ↔ Q a) :
    Frees s vars e Q :=
  { h with denotes := h.denotes.congr hPQ }

theorem Frees.depicts {P : Valuation → Prop} (h : Frees s vars e P) : s.Depicts e P :=
  ⟨h.denotes, h.ascends⟩

/-- The ordered diagram of a set that does not change with some variables does not test them. -/
theorem frees_of_depicts {P : Valuation → Prop} (h : s.Depicts e P) (hs : s.Replayable)
    (hP : ∀ v ∈ vars, Valuation.Blind P v) : Frees s vars e P := by
  have hignores : ∀ v ∈ vars, s.Ignores e v := fun v hv a value =>
    Bool.eq_iff_iff.2 ((h.eval_iff _).trans ((hP v hv a value).trans (h.eval_iff a).symm))
  refine ⟨h.toDenotes, h.ascends, hignores, fun v hv hmem => ?_⟩
  exact Store.dependsOn_iff_not_ignores.1 ((h.ascends.mem_support_iff hs h.has).1 hmem)
    (hignores v hv)

/-- What is known of the answer in an ordered store holds of the answer beside other diagrams, which
is ordered as well. -/
theorem Paced.answers_depicts {op op' : DiagramM Edge} {P : Valuation → Prop}
    (h : Paced op op' s t Copied) (h' : Ensures op' t fun r later => later.Denotes r P) :
    Answers Store.Replayable op s fun r later => later.Depicts r P := by
  refine (h.answers h'.answers).weaken ?_
  rintro r later hlater - ⟨r', t', -, ht', -, hcopy, hr⟩
  exact ⟨hcopy.symm.denotes ht'.founded hlater.toFounded hr,
    hcopy.ascends (ht'.toReduced.ascends hr.has)⟩

variable (hs : s.Replayable) (h : s.Ascends e)
include hs h

/-- What an operation makes of ordered diagrams in an ordered store, it makes of an ordered diagram
in any store. -/
theorem answers_of_paced {P Q : Valuation → Prop} (he : s.Denotes e P) {op : Edge → DiagramM Edge}
    (hpaced : ∀ t f, s.Paired t → s.Copies t e f → Paced (op e) (op f) s t Copied)
    (hensures : ∀ (t : Store) (f : Edge), t.Sound → t.Denotes f P →
      Ensures (op f) t fun r later => later.Denotes r Q)
    (hQ : ∀ v ∈ vars, Valuation.Blind Q v) :
    Answers Store.Replayable (op e) s fun r later => Frees later vars r Q := by
  obtain ⟨t, f, hst, ht, -, hcopy⟩ := h.exists_copy he.has hs.paired_blank Store.sound_blank
  have hf := hcopy.denotes hs.toFounded ht.founded he
  exact ((hpaced t f hst hcopy).answers_depicts (hensures t f ht hf)).weaken
    fun r later hlater _ hr => frees_of_depicts hr hlater hQ

theorem answers_quantifyExists {P : Valuation → Prop} (he : s.Denotes e P) (vars : List Var) :
    Answers Store.Replayable (quantifyExists e vars) s fun r later =>
      Frees later vars r fun a => ∃ b, a.VariesOn vars b ∧ P b :=
  answers_of_paced hs h he (fun _ _ hst hcopy => paced_quantifyExists hst hcopy vars)
    (fun _ _ ht hf => ensures_quantifyExists ht hf vars)
    fun _ hv => Valuation.Blind.exists (.inl hv)

theorem answers_quantifyForall {P : Valuation → Prop} (he : s.Denotes e P) (vars : List Var) :
    Answers Store.Replayable (quantifyForall e vars) s fun r later =>
      Frees later vars r fun a => ∀ b, a.VariesOn vars b → P b :=
  answers_of_paced hs h he (fun _ _ hst hcopy => paced_quantifyForall hst hcopy vars)
    (fun _ _ ht hf => ensures_quantifyForall ht hf vars)
    fun _ hv => Valuation.Blind.forall (.inl hv)

end Diagram

end PlanningGame
