import Mathlib
import PlanningGame.Proofs.Diagram.Ascending

/-!
# Cubes and conjunctions of literals

A cube is a chain of decisions, one for each literal in the order of the variables, also where a
variable occurs again. The conjunction of the same literals is ordered and tests every variable
once. Both have the same function. They are the same edge exactly if no variable occurs twice,
because only then does the chain ascend.
-/
namespace PlanningGame

namespace Store

variable {s s' : Store} {e next low high : Edge} {v : Var} {l : Int} {literals : List Int}

/-- A decision between two different edges leads to a node that tests its variable. -/
theorem Branches.inner (h : s.Branches v low high e) (hs : s.Founded) (hne : low ≠ high) :
    s.Has e ∧ e.index ≠ 1 ∧ (s.node e.index).var = v ∧ s.low e = low ∧ s.high e = high := by
  have key : ∀ low high e : Edge, low ≠ high → s.Decided v low high e →
      s.Has e ∧ e.index ≠ 1 ∧ (s.node e.index).var = v ∧ s.low e = low ∧ s.high e = high := by
    intro low high e hne hd
    unfold Decided at hd
    rw [if_neg hne] at hd
    obtain ⟨hmark, hnode⟩ := hd
    have hterminal : (⟨v, low, high⟩ : Node) ≠ .terminal := fun heq => h.1 (congrArg Node.var heq)
    refine ⟨has_of_node? hnode, Diagram.index_ne_one_of_node? hs hterminal hnode, ?_⟩
    rw [Store.low, Store.high, node_of_node? hnode, hmark]
    exact ⟨rfl, rfl, rfl⟩
  have hd := h.2
  split at hd
  · have hneg := key (-low) (-high) (-e) (neg_injective.ne hne) hd
    rwa [low_neg, high_neg, neg_inj, neg_inj] at hneg
  · exact key low high e hne hd

/-- The edge asks for one literal and otherwise leads to the next edge. -/
structure Links (store : Store) (l : Int) (e next : Edge) : Prop where
  has : store.Has e
  inner : e.index ≠ 1
  var_eq : (store.node e.index).var = l.natAbs.toUInt32
  branches : if l < 0 then store.low e = next ∧ store.high e = .zero
    else store.low e = .zero ∧ store.high e = next

namespace Links

theorem mono (h : s.Links l e next) (hle : s ≤ s') : s'.Links l e next := by
  refine ⟨h.has.mono hle, h.inner, ?_, ?_⟩
  · rw [h.has.node_eq hle, h.var_eq]
  · rw [h.has.low_eq hle, h.has.high_eq hle]
    exact h.branches

theorem eval_iff (h : s.Links l e next) (hs : s.Founded) (a : Valuation) :
    s.eval e a = true ↔ a.Meets l ∧ s.eval next a = true := by
  have hl : l ≠ 0 := by
    rintro rfl
    exact (hs.decides h.has h.inner).var_ne_zero h.var_eq
  have hb := h.branches
  rw [hs.eval_inner h.has h.inner, h.var_eq, Valuation.Meets]
  split at hb
  · next hneg =>
    have : ¬ 0 < l := by omega
    rw [hb.1, hb.2]
    split <;> simp_all
  · next hneg =>
    have : 0 < l := by omega
    rw [hb.1, hb.2]
    split <;> simp_all

/-- The other branch is constant, so the order depends on the next edge only. -/
theorem ascends_iff (h : s.Links l e next) :
    s.Ascends e ↔ s.Below l.natAbs.toUInt32 next ∧ s.Ascends next := by
  have hb := h.branches
  constructor
  · intro hasc
    cases hasc with
    | terminal hi => exact absurd hi h.inner
    | inner _ hbelow hbelow' hlow hhigh =>
      rw [h.var_eq] at hbelow hbelow'
      split at hb
      · exact ⟨hb.1 ▸ hbelow, hb.1 ▸ hlow⟩
      · exact ⟨hb.2 ▸ hbelow', hb.2 ▸ hhigh⟩
  · rintro ⟨hbelow, hnext⟩
    have hzero : s.Below l.natAbs.toUInt32 .zero := .inl rfl
    have hascends : s.Ascends .zero := .terminal rfl
    refine .inner h.inner ?_ ?_ ?_ ?_ <;> split at hb <;> simp only [hb, h.var_eq] <;> assumption

end Links

/-- A chain of decisions down to the constant true, one for each literal. -/
inductive Chain (store : Store) : Edge → List Int → Prop
  | nil : Chain store .one []
  | cons {e next : Edge} {l : Int} {rest : List Int} : store.Links l e next →
      Chain store next rest → Chain store e (l :: rest)

namespace Chain

theorem mono (h : s.Chain e literals) (hle : s ≤ s') : s'.Chain e literals := by
  induction h with
  | nil => exact .nil
  | cons hlinks _ ih => exact .cons (hlinks.mono hle) ih

theorem ne_zero (h : s.Chain e literals) : e ≠ .zero := by
  cases h with
  | nil => decide
  | cons hlinks => exact fun heq => hlinks.inner (heq ▸ rfl)

/-- The chain says what its literals say. -/
theorem denotes (h : s.Chain e literals) (hs : s.Founded) :
    s.Denotes e fun a => ∀ l ∈ literals, a.Meets l := by
  induction h with
  | nil => exact hs.denotes_one.congr fun a => by simp
  | cons hlinks _ ih =>
    refine ⟨hlinks.has, fun a => ?_⟩
    rw [hlinks.eval_iff hs, ih.eval_iff, List.forall_mem_cons]

/-- The first literal of a chain is the one that its top tests. -/
theorem below_iff {rest : List Int} (h : s.Chain e (l :: rest)) :
    s.Below v e ↔ v < l.natAbs.toUInt32 := by
  cases h with
  | cons hlinks =>
    unfold Below
    rw [hlinks.var_eq]
    exact or_iff_right hlinks.inner

/-- A chain is ordered exactly if the variables of its literals increase. -/
theorem ascends_iff (h : s.Chain e literals) (hsize : ∀ l ∈ literals, l.natAbs < UInt32.size) :
    s.Ascends e ↔ (literals.map Int.natAbs).IsChain (· < ·) := by
  induction h with
  | nil => exact iff_of_true (.terminal rfl) .nil
  | @cons e next l rest hlinks hnext ih =>
    obtain ⟨hl, hrest⟩ := List.forall_mem_cons.1 hsize
    rw [hlinks.ascends_iff, ih hrest]
    cases rest with
    | nil =>
      cases hnext
      exact iff_of_true ⟨.inl rfl, .nil⟩ (.singleton _)
    | cons k rest =>
      rw [List.map_cons, List.map_cons, List.map_cons, List.isChain_cons_cons, hnext.below_iff,
        UInt32.lt_iff_toNat_lt, UInt32.toNat_ofNat_of_lt' hl,
        UInt32.toNat_ofNat_of_lt' (hrest k List.mem_cons_self)]

end Chain

end Store

namespace Diagram

open Store.Soundness

variable {s : Store} {e next : Edge} {l : Int} {literals : List Int}

section Cubes

theorem answers_addLiteral (hs : s.Replayable) (hnext : s.Has next) (hne : next ≠ .zero)
    (hv : l.natAbs.toUInt32 ≠ 0) :
    Answers Store.Replayable (addLiteral next l) s fun e later => later.Links l e next := by
  have hzero := hs.toFounded.has_zero
  have hbranch : ∀ low high, s.Has low → s.Has high → low ≠ high →
      Answers Store.Replayable (branch l.natAbs.toUInt32 low high) s fun e later =>
        later.Has e ∧ e.index ≠ 1 ∧ (later.node e.index).var = l.natAbs.toUInt32 ∧
          later.low e = low ∧ later.high e = high := by
    intro low high hlow hhigh hne
    have hmirrors := (mirrors_branch hs.alike hlow hhigh).concludes
      (ensures_branch hs.regular hv hlow.denotes hhigh.denotes False.elim)
    exact (hmirrors.answers fun _ _ hfull => hfull.1).weaken fun e later hlater _ he =>
      he.2.inner hlater.toFounded hne
  unfold addLiteral
  dsimp only
  split
  · next hneg =>
    refine (hbranch next .zero hnext hzero hne).weaken fun e later _ _ h => ?_
    exact ⟨h.1, h.2.1, h.2.2.1, (if_pos hneg).mpr h.2.2.2⟩
  · next hneg =>
    refine (hbranch .zero next hzero hnext hne.symm).weaken fun e later _ _ h => ?_
    exact ⟨h.1, h.2.1, h.2.2.1, (if_neg hneg).mpr h.2.2.2⟩

/-- What is added to a chain goes on top. -/
theorem answers_foldlM_addLiteral (hs : s.Replayable) {below : List Int} (h : s.Chain e below)
    (hvar : ∀ l ∈ literals, l.natAbs.toUInt32 ≠ 0) :
    Answers Store.Replayable (literals.foldlM addLiteral e) s fun r later =>
      later.Chain r (literals.reverse ++ below) := by
  induction literals generalizing s e below with
  | nil => exact answers_pure hs h
  | cons l rest ih =>
    obtain ⟨hl, hrest⟩ := List.forall_mem_cons.1 hvar
    rw [List.foldlM_cons, List.reverse_cons, List.append_assoc]
    apply (answers_addLiteral hs (h.denotes hs.toFounded).has h.ne_zero hl).bind
    intro r later hlater hle hr
    exact ih hlater (.cons hr (h.mono hle)) hrest

/-- A cube is the chain of its literals in the order of their variables. -/
theorem answers_cube (hs : s.Replayable) (hvar : ∀ l ∈ literals, l.natAbs.toUInt32 ≠ 0) :
    Answers Store.Replayable (cube literals) s fun e later =>
      ∃ ordered : List Int, ordered.Perm literals ∧
        (ordered.map Int.natAbs).Pairwise (· ≤ ·) ∧ later.Chain e ordered := by
  let falling := literals.mergeSort fun a b => decide (b.natAbs ≤ a.natAbs)
  have hperm : falling.Perm literals := List.mergeSort_perm _ _
  have hfalling : falling.Pairwise fun a b => decide (b.natAbs ≤ a.natAbs) = true :=
    List.pairwise_mergeSort (by simp only [decide_eq_true_eq]; omega)
      (by simp only [Bool.or_eq_true, decide_eq_true_eq]; omega) literals
  have hrising : (falling.reverse.map Int.natAbs).Pairwise (· ≤ ·) := by
    rw [List.pairwise_map, List.pairwise_reverse]
    exact hfalling.imp of_decide_eq_true
  unfold cube
  have hnote : ∀ level message, EnsuresIn Store.Replayable (note level message) s fun _ _ => True :=
    fun level message => ensures_note hs level message fun _ _ => trivial
  apply (hnote _ _).answers.bind
  intro _ now hnow _ _
  refine (answers_foldlM_addLiteral hnow .nil fun l hl => hvar l (hperm.mem_iff.1 hl)).weaken
    fun e later _ _ h => ?_
  rw [List.append_nil] at h
  exact ⟨falling.reverse, (List.reverse_perm _).trans hperm, hrising, h⟩

end Cubes

section Conjunctions

/-- The diagram of a literal. -/
def literalEdge (l : Int) : DiagramM Edge := do
  return (← literal l.natAbs.toUInt32).complementIf (l < 0)

/-- The conjunction of the diagrams of literals. -/
def conjLiterals (literals : List Int) : DiagramM Edge := do
  conjAll (← literals.mapM literalEdge)

theorem answers_literalEdge {t : Store} (ht : t.Sound) (hv : l.natAbs.toUInt32 ≠ 0) :
    Answers Store.Sound (literalEdge l) t fun e later => later.Denotes e fun a => a.Meets l := by
  have hl : l ≠ 0 := by
    rintro rfl
    exact hv rfl
  unfold literalEdge
  apply (ensures_literal ht hv).answers.bind
  intro e later hlater _ he
  refine answers_pure hlater ⟨(Store.has_complementIf _).2 he.has, fun a => ?_⟩
  rw [hlater.founded.eval_complementIf he.has, Bool.eq_iff_iff.2 (he.eval_iff a), Valuation.Meets]
  obtain hneg | hpos : l < 0 ∨ 0 < l := by omega
  · simp [hneg, hneg.not_gt]
  · simp [hpos, hpos.not_gt]

theorem answers_conjLiterals_of_sound {t : Store} (ht : t.Sound)
    (hvar : ∀ l ∈ literals, l.natAbs.toUInt32 ≠ 0) :
    Answers Store.Sound (conjLiterals literals) t fun e later =>
      later.Denotes e fun a => ∀ l ∈ literals, a.Meets l := by
  unfold conjLiterals
  apply (answers_mapM ht (fun l e now later hnow hle he => he.mono hnow.founded hle)
    fun l hl now hnow _ => answers_literalEdge hnow (hvar l hl)).bind
  intro edges later hlater _ hedges
  exact (ensures_conjAll_each hlater hedges).answers

theorem paced_conjLiterals {s t : Store} (h : s.Paired t) (literals : List Int) :
    Paced (conjLiterals literals) (conjLiterals literals) s t Copied := by
  have hliteral : ∀ l (s' t' : Store), s'.Paired t' → s ≤ s' → t ≤ t' →
      Paced (literalEdge l) (literalEdge l) s' t' Copied := fun l s' t' h' _ _ =>
    (paced_literal h' _).bind fun _ _ _ _ h'' _ _ he =>
      lockstep_pure h'' (Store.Copies.complementIf he _)
  have hliterals : Paced (literals.mapM literalEdge) (literals.mapM literalEdge) s t
      fun edges edges' s' t' => CopiesEach s' t' edges edges' :=
    lockstep_mapM_self h (fun _ _ _ _ _ _ hc hle hle' => Store.Copies.mono hc hle hle') hliteral
  unfold conjLiterals
  exact hliterals.bind fun _ _ _ _ h' _ _ hedges => paced_conjAll h' hedges

/-- The conjunction of literals is ordered, whatever else is in the store. -/
theorem answers_conjLiterals (hs : s.Replayable) (hvar : ∀ l ∈ literals, l.natAbs.toUInt32 ≠ 0) :
    Answers Store.Replayable (conjLiterals literals) s fun e later =>
      later.Denotes e (fun a => ∀ l ∈ literals, a.Meets l) ∧ later.Ascends e := by
  refine ((paced_conjLiterals hs.paired_blank literals).answers
    (answers_conjLiterals_of_sound Store.sound_blank hvar)).weaken ?_
  rintro e later hlater - ⟨e', t', -, ht', -, hcopy, he'⟩
  exact ⟨hcopy.symm.denotes ht'.founded hlater.toFounded he', hcopy.ascends (ht'.ascends he'.has)⟩

end Conjunctions

/-- The cube and the conjunction of the same literals have one function. The cube is not the edge of
the constant false, even if no valuation meets all literals. They are one edge exactly if no
variable occurs twice. -/
theorem answers_cube_conjLiterals (hs : s.Replayable)
    (hl : ∀ l ∈ literals, l ≠ 0 ∧ l.natAbs < UInt32.size) :
    Answers Store.Replayable (do return (← cube literals, ← conjLiterals literals)) s
      fun pair later =>
        later.Denotes pair.1 (fun a => ∀ l ∈ literals, a.Meets l) ∧
        later.Denotes pair.2 (fun a => ∀ l ∈ literals, a.Meets l) ∧
        pair.1 ≠ .zero ∧ (pair.1 = pair.2 ↔ (literals.map Int.natAbs).Nodup) := by
  have hvar : ∀ l ∈ literals, l.natAbs.toUInt32 ≠ 0 := fun l hmem =>
    have hsingle : Literals [l] :=
      ⟨by simp, by simpa using (hl l hmem).1, by simpa using (hl l hmem).2⟩
    hsingle.var_ne_zero List.mem_cons_self
  apply (answers_cube hs hvar).bind
  rintro e s₁ hs₁ - ⟨ordered, hperm, hrising, hchain⟩
  apply (answers_conjLiterals hs₁ hvar).bind
  rintro f s₂ hs₂ hle ⟨hf, hascends⟩
  replace hchain := hchain.mono hle
  have he : s₂.Denotes e fun a => ∀ l ∈ literals, a.Meets l :=
    (hchain.denotes hs₂.toFounded).congr fun a => by simp only [hperm.mem_iff]
  have hordered : s₂.Ascends e ↔ (literals.map Int.natAbs).Nodup := by
    rw [hchain.ascends_iff fun l hmem => (hl l (hperm.mem_iff.1 hmem)).2, List.isChain_iff_pairwise,
      ← (hperm.map _).nodup_iff]
    constructor
    · exact fun h => h.imp Nat.ne_of_lt
    · exact fun h => (hrising.and h).imp fun hle => lt_of_le_of_ne hle.1 hle.2
  refine answers_pure hs₂ ⟨he, hf, hchain.ne_zero, ?_⟩
  rw [← hordered]
  change e = f ↔ _
  constructor
  · rintro rfl
    exact hascends
  · exact fun h => h.eq_of_denotes hascends hs₂ he hf

end Diagram

end PlanningGame
