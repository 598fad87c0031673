import Mathlib
import PlanningGame.Proofs.Diagram.Substitution

/-!
# Meaning of cubes

A cube is built from its last variable up and stands for the conjunction of its literals. If its
variables are different then every new literal stands above all literals added before it, so that
the cube is ordered. No variable of a cube has the number zero.
-/
namespace PlanningGame

/-- The literal is true under the valuation. -/
def Valuation.Meets (a : Valuation) (literal : Int) : Prop :=
  a literal.natAbs.toUInt32 = decide (0 < literal)

/-- Literals over variables that are different from zero and from each other. -/
structure Literals (literals : List Int) : Prop where
  nodup : (literals.map Int.natAbs).Nodup
  ne_zero : ∀ l ∈ literals, l ≠ 0
  lt_size : ∀ l ∈ literals, l.natAbs < UInt32.size

namespace Literals

variable {literals : List Int}

theorem perm {others : List Int} (h : Literals literals) (hp : others.Perm literals) :
    Literals others :=
  ⟨(hp.map _).nodup_iff.2 h.nodup, fun l hl => h.ne_zero l (hp.mem_iff.1 hl),
    fun l hl => h.lt_size l (hp.mem_iff.1 hl)⟩

theorem tail {l : Int} (h : Literals (l :: literals)) : Literals literals :=
  ⟨(List.nodup_cons.1 h.nodup).2, fun k hk => h.ne_zero k (List.mem_cons_of_mem _ hk),
    fun k hk => h.lt_size k (List.mem_cons_of_mem _ hk)⟩

theorem var_ne_zero {l : Int} (h : Literals literals) (hl : l ∈ literals) :
    l.natAbs.toUInt32 ≠ 0 := by
  intro hz
  have hsize := h.lt_size l hl
  have := congrArg UInt32.toNat hz
  rw [UInt32.toNat_ofNat_of_lt' hsize] at this
  exact h.ne_zero l hl (Int.natAbs_eq_zero.1 this)

theorem var_lt_var {k l : Int} (h : Literals literals) (hk : k ∈ literals) (hl : l ∈ literals)
    (hlt : k.natAbs < l.natAbs) : k.natAbs.toUInt32 < l.natAbs.toUInt32 := by
  rw [UInt32.lt_iff_toNat_lt, UInt32.toNat_ofNat_of_lt' (h.lt_size k hk),
    UInt32.toNat_ofNat_of_lt' (h.lt_size l hl)]
  exact hlt

end Literals

namespace Diagram

open Store.Soundness

variable {store : Store}

section Meaning

variable {sound : Store → Prop} [Store.Soundness sound]

/-- A literal on top of a cube that is not the constant false gives no constant. -/
theorem ensures_addLiteral (hs : sound store) {cube : Edge} {P : Valuation → Prop} {l : Int}
    (hcube : store.Denotes cube P) (hne : cube ≠ .zero) (hv : l.natAbs.toUInt32 ≠ 0)
    (hb : strict sound → store.Below l.natAbs.toUInt32 cube) :
    EnsuresIn sound (addLiteral cube l) store
      fun e later => later.Denotes e (fun a => a.Meets l ∧ P a) ∧ e.index ≠ 1 := by
  have hl : l ≠ 0 := by
    rintro rfl
    exact hv rfl
  have hzero := (founded hs).denotes_zero
  unfold addLiteral Valuation.Meets
  dsimp only
  split
  · next hneg =>
      have hbelow : strict sound → store.Below l.natAbs.toUInt32 cube ∧
          store.Below l.natAbs.toUInt32 .zero := fun h => ⟨hb h, .inl rfl⟩
      refine ((ensures_branch hs hv hcube hzero hbelow).and
        (ensures_branch_inner hs hv hcube.has hzero.has hne hbelow)).weaken
          fun e later _ _ ⟨he, hi, _⟩ => ⟨he.congr fun a => ?_, hi⟩
      have : ¬ 0 < l := by omega
      split <;> simp_all
  · next hpos =>
      have hbelow : strict sound → store.Below l.natAbs.toUInt32 .zero ∧
          store.Below l.natAbs.toUInt32 cube := fun h => ⟨.inl rfl, hb h⟩
      refine ((ensures_branch hs hv hzero hcube hbelow).and
        (ensures_branch_inner hs hv hzero.has hcube.has hne.symm hbelow)).weaken
          fun e later _ _ ⟨he, hi, _⟩ => ⟨he.congr fun a => ?_, hi⟩
      have : 0 < l := by omega
      split <;> simp_all

/-- Literals go on top of a cube in decreasing order of their variables. If the variables are
different then each of them is above all before it. -/
theorem ensures_foldlM_addLiteral {literals : List Int} (hs : sound store) {cube : Edge}
    {P : Valuation → Prop} (hcube : store.Denotes cube P) (hne : cube ≠ .zero)
    (hvar : ∀ l ∈ literals, l.natAbs.toUInt32 ≠ 0) (hl : strict sound → Literals literals)
    (hsorted : literals.Pairwise fun k l => l.natAbs ≤ k.natAbs)
    (hb : strict sound → ∀ l ∈ literals, store.Below l.natAbs.toUInt32 cube) :
    EnsuresIn sound (literals.foldlM addLiteral cube) store
      fun e later => later.Denotes e (fun a => (∀ l ∈ literals, a.Meets l) ∧ P a) ∧ e ≠ .zero := by
  induction literals generalizing store cube P with
  | nil => exact ensures_pure hs ⟨hcube.congr fun a => by simp, hne⟩
  | cons l rest ih =>
    rw [List.foldlM_cons]
    obtain ⟨hfirst, hrest⟩ := List.pairwise_cons.1 hsorted
    refine (ensures_addLiteral hs hcube hne (hvar l List.mem_cons_self)
      fun h => hb h l List.mem_cons_self).bind fun e later hs' hle ⟨he, hi⟩ => ?_
    have hne' : e ≠ .zero := fun hzero => hi (hzero ▸ rfl)
    refine (ih hs' he hne' (fun k hk => hvar k (List.mem_cons_of_mem _ hk)) (fun h => (hl h).tail)
      hrest fun h k hk => ?_).weaken fun r last _ _ ⟨hr, hr'⟩ =>
        ⟨hr.congr fun a => by rw [List.forall_mem_cons]; tauto, hr'⟩
    -- the next variable is above the literal just added and above the cube
    have hne : k.natAbs ≠ l.natAbs := fun heq =>
      (List.nodup_cons.1 (hl h).nodup).1 (heq ▸ List.mem_map_of_mem hk)
    have hkl := (hl h).var_lt_var (List.mem_cons_of_mem _ hk) List.mem_cons_self
      (lt_of_le_of_ne (hfirst k hk) hne)
    refine he.below (reduced_of_strict hs' h) fun w hw a x => and_congr ?_ ?_
    · have hne := UInt32.ne_of_lt (UInt32.lt_of_le_of_lt hw hkl)
      rw [Valuation.Meets, Valuation.update_of_ne a hne.symm, Valuation.Meets]
    · rw [← hcube.eval_iff, ← hcube.eval_iff, (reduced_of_strict hs h).ignores_of_below hcube.has
        (hb h k (List.mem_cons_of_mem _ hk)) hw]

/-- The literals of a cube are added from the greatest variable on. -/
theorem pairwise_mergeSort_natAbs (literals : List Int) :
    (literals.mergeSort fun a b => decide (b.natAbs ≤ a.natAbs)).Pairwise
      fun a b => b.natAbs ≤ a.natAbs := by
  have hsorted := @List.pairwise_mergeSort _ (fun a b : Int => decide (b.natAbs ≤ a.natAbs))
    (by simp only [decide_eq_true_eq]; omega)
    (by simp only [Bool.or_eq_true, decide_eq_true_eq]; omega) literals
  exact hsorted.imp of_decide_eq_true

/-- A cube says what its literals say. It is ordered if their variables are different, and it is
never the constant false, even if no valuation meets all literals. -/
theorem ensures_cube {literals : List Int} (hs : sound store)
    (hvar : ∀ l ∈ literals, l.natAbs.toUInt32 ≠ 0) (hl : strict sound → Literals literals) :
    EnsuresIn sound (cube literals) store
      fun e later => later.Denotes e (fun a => ∀ l ∈ literals, a.Meets l) ∧ e ≠ .zero := by
  unfold cube
  dsimp only
  refine ensures_note_bind hs _ _ fun now hnow _ => ?_
  have hperm := List.mergeSort_perm literals fun a b => decide (b.natAbs ≤ a.natAbs)
  refine (ensures_foldlM_addLiteral hnow (founded hnow).denotes_one (by decide)
    (fun l hl => hvar l (hperm.mem_iff.1 hl)) (fun h => (hl h).perm hperm)
    (pairwise_mergeSort_natAbs literals) fun _ _ _ => .inl rfl).weaken
      fun e later _ _ ⟨he, hne⟩ => ⟨he.congr fun a => ?_, hne⟩
  simp only [hperm.mem_iff, and_true]

end Meaning

section Needs

theorem needs_addLiteral (cube : Edge) (l : Int) :
    Needs (addLiteral cube l) (l.natAbs.toUInt32 ≠ 0) := by
  unfold addLiteral
  dsimp only
  split <;> exact needs_branch _ _ _

/-- Cubes have no literals of the variable zero. -/
theorem needs_cube (literals : List Int) :
    Needs (cube literals) (∀ l ∈ literals, l.natAbs.toUInt32 ≠ 0) := by
  unfold cube
  apply (needs_true _).bind
  intro _ _
  apply (needs_foldlM (fun l _ cube => needs_addLiteral cube l) Edge.one).weaken
  intro hsorted l hl
  exact hsorted l ((List.mergeSort_perm literals _).mem_iff.2 hl)

end Needs

end Diagram

end PlanningGame
