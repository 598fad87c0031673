import Mathlib
import PlanningGame.Proofs.Diagram.Within

/-!
# Exposed variables

Quantification goes down a diagram and drops the variables that are above its top, so it misses a
variable that is tested below a greater one. The variables of a player are exposed in a diagram if
none of them is. The connectives keep them exposed, since they test the smallest variable first,
and it does not matter in which order the other variables come. If they are exposed then
quantification leaves none of them.
-/
namespace PlanningGame

namespace Store

/-- The edge is in the store, and none of the given variables is tested below a greater variable,
or is less than `top`. -/
inductive Exposes (store : Store) (vars : Set Var) : Nat → Edge → Prop
  | terminal {top : Nat} {e : Edge} (hi : e.index = 1) : Exposes store vars top e
  | inner {top : Nat} {e : Edge} {node : Node} (hnode : store.node? e.index = some node)
      (hvar : node.var ∈ vars → top ≤ node.var.toNat)
      (hlow : Exposes store vars (max top node.var.toNat) node.low)
      (hhigh : Exposes store vars (max top node.var.toNat) node.high) : Exposes store vars top e

variable {store later : Store} {vars own : Set Var} {top less : Nat} {e f : Edge} {v : Var}

theorem Exposes.of_index_eq (h : store.Exposes vars top e) (heq : f.index = e.index) :
    store.Exposes vars top f := by
  cases h with
  | terminal hi => exact .terminal (heq.trans hi)
  | inner hnode hvar hlow hhigh => exact .inner (heq ▸ hnode) hvar hlow hhigh

theorem Exposes.neg (h : store.Exposes vars top e) : store.Exposes vars top (-e) :=
  h.of_index_eq rfl

theorem Exposes.mono (h : store.Exposes vars top e) (hle : store ≤ later) :
    later.Exposes vars top e := by
  induction h with
  | terminal hi => exact .terminal hi
  | inner hnode hvar _ _ ihlow ihhigh => exact .inner (hle _ _ hnode) hvar ihlow ihhigh

theorem Exposes.has (h : store.Exposes vars top e) (hf : store.Founded) : store.Has e := by
  cases h with
  | terminal hi =>
    rcases Edge.eq_of_index_eq_one hi with rfl | rfl
    · exact hf.has_one
    · exact hf.has_zero
  | inner hnode => exact has_of_node? hnode

theorem Exposes.lower (h : store.Exposes vars top e) (hle : less ≤ top) :
    store.Exposes vars less e := by
  induction h generalizing less with
  | terminal hi => exact .terminal hi
  | inner hnode hvar _ _ ihlow ihhigh =>
    exact .inner hnode (fun hmem => hle.trans (hvar hmem)) (ihlow (max_le_max_right _ hle))
      (ihhigh (max_le_max_right _ hle))

/-- What is not above the diagram may be put there. -/
theorem Exposes.raise (h : store.Exposes vars top e) (hle : e.index ≠ 1 → v ≤ store.level e) :
    store.Exposes vars (max top v.toNat) e := by
  cases h with
  | terminal hi => exact .terminal hi
  | @inner _ _ node hnode hvar hlow hhigh =>
    by_cases hi : e.index = 1
    · exact .terminal hi
    have hlevel := hle hi
    rw [level_of_inner hi, node_of_node? hnode, UInt32.le_iff_toNat_le] at hlevel
    have hmax : max (max top v.toNat) node.var.toNat = max top node.var.toNat := by omega
    exact .inner hnode (fun hmem => max_le (hvar hmem) hlevel) (hmax.symm ▸ hlow)
      (hmax.symm ▸ hhigh)

/-- Variables that are not tested are exposed. -/
theorem Within.exposes (h : store.Within own e) (hdisjoint : ∀ v ∈ own, v ∉ vars) :
    store.Exposes vars top e := by
  induction h generalizing top with
  | terminal hi => exact .terminal hi
  | inner hnode hvar _ _ ihlow ihhigh =>
    exact .inner hnode (fun hmem => absurd hmem (hdisjoint _ hvar)) ihlow ihhigh

theorem Exposes.low (h : store.Exposes vars top e) (hi : e.index ≠ 1) :
    store.Exposes vars (max top (store.level e).toNat) (store.low e) := by
  cases h with
  | terminal hterminal => exact absurd hterminal hi
  | inner hnode _ hlow =>
    rw [level_of_inner hi, node_of_node? hnode]
    exact hlow.of_index_eq (by rw [low_index, node_of_node? hnode])

theorem Exposes.high (h : store.Exposes vars top e) (hi : e.index ≠ 1) :
    store.Exposes vars (max top (store.level e).toNat) (store.high e) := by
  cases h with
  | terminal hterminal => exact absurd hterminal hi
  | inner hnode _ _ hhigh =>
    rw [level_of_inner hi, node_of_node? hnode]
    exact hhigh.of_index_eq (by rw [high_index, node_of_node? hnode])

theorem Exposes.le_level (h : store.Exposes vars top e) (hi : e.index ≠ 1)
    (hmem : store.level e ∈ vars) : top ≤ (store.level e).toNat := by
  cases h with
  | terminal hterminal => exact absurd hterminal hi
  | inner hnode hvar =>
    rw [level_of_inner hi, node_of_node? hnode] at hmem ⊢
    exact hvar hmem

/-- Given variables that are all above the top are not tested. -/
theorem Exposes.within (h : store.Exposes vars top e) (he : store.Within own e)
    (htop : ∀ v ∈ vars, v.toNat < top) : store.Within (own \ vars) e := by
  induction h with
  | terminal hi => exact .terminal hi
  | @inner top e node hnode hvar _ _ ihlow ihhigh =>
    cases he with
    | terminal hi => exact .terminal hi
    | inner hnode' hown hlow hhigh =>
      obtain rfl := Option.some.inj (hnode.symm.trans hnode')
      have hbelow : ∀ v ∈ vars, v.toNat < max top node.var.toNat := fun v hv =>
        (htop v hv).trans_le (le_max_left _ _)
      refine .inner hnode ⟨hown, fun hmem => ?_⟩ (ihlow hlow hbelow) (ihhigh hhigh hbelow)
      exact absurd (htop _ hmem) (hvar hmem).not_gt

section Operands

variable {low high : Edge} {triple t lower upper : Triple}

theorem Exposes.cofactors (h : store.Exposes vars top e) (hf : store.Founded)
    (hok : store.cofactors e v = .ok (low, high)) :
    store.Exposes vars (max top v.toNat) low ∧ store.Exposes vars (max top v.toNat) high := by
  unfold Store.cofactors at hok
  split_ifs at hok with _ hlt heq
  · obtain ⟨rfl, rfl⟩ := Prod.mk.inj (Except.ok.inj hok)
    have hraised := h.raise fun _ => UInt32.le_of_lt hlt
    exact ⟨hraised, hraised⟩
  · obtain ⟨rfl, rfl⟩ := Prod.mk.inj (Except.ok.inj hok)
    by_cases hi : e.index = 1
    · rw [hf.low_of_isTerminal hi, hf.high_of_isTerminal hi]
      exact ⟨.terminal hi, .terminal hi⟩
    · exact heq ▸ ⟨h.low hi, h.high hi⟩

theorem Parts.exposes (h : store.Parts t lower upper) (hf : store.Founded)
    (ht : t.Every (store.Exposes vars top)) :
    lower.Every (store.Exposes vars (max top (store.topVar t).toNat)) ∧
      upper.Every (store.Exposes vars (max top (store.topVar t).toNat)) := by
  obtain ⟨hlow₁, hhigh₁⟩ := ht.condition.cofactors hf h.condition
  obtain ⟨hlow₂, hhigh₂⟩ := ht.positive.cofactors hf h.positive
  obtain ⟨hlow₃, hhigh₃⟩ := ht.negative.cofactors hf h.negative
  exact ⟨⟨hlow₁, hlow₂, hlow₃⟩, hhigh₁, hhigh₂, hhigh₃⟩

theorem Decided.exposes (h : store.Decided v low high e) (hv : v ∈ vars → top ≤ v.toNat)
    (hlow : store.Exposes vars (max top v.toNat) low)
    (hhigh : store.Exposes vars (max top v.toNat) high) : store.Exposes vars top e := by
  unfold Decided at h
  split at h
  · exact h ▸ hlow.lower (le_max_left _ _)
  · exact .inner h.2 hv hlow hhigh

theorem Branches.exposes (h : store.Branches v low high e) (hv : v ∈ vars → top ≤ v.toNat)
    (hlow : store.Exposes vars (max top v.toNat) low)
    (hhigh : store.Exposes vars (max top v.toNat) high) : store.Exposes vars top e := by
  have hdecided := h.2
  split at hdecided
  · exact (hdecided.exposes hv hlow.neg hhigh.neg).of_index_eq rfl
  · exact hdecided.exposes hv hlow hhigh

/-- An answer that is there exposes what its operands expose. -/
theorem Replays.exposes (h : store.Replays triple e) (hf : store.Founded)
    (ht : triple.Every (store.Exposes vars top)) : store.Exposes vars top e := by
  have hstandard {given : Triple} {top : Nat} (hgiven : given.Every (store.Exposes vars top)) :
      given.standard.Every (store.Exposes vars top) :=
    every_standard (fun _ => .terminal) (fun _ => Exposes.neg) hgiven
  induction h generalizing top with
  | settled hstd =>
    have hkey := hstandard ht
    rwa [hstd] at hkey
  | reduced hstd hparts _ _ hbranch ihlow ihhigh =>
    have hkey := hstandard ht
    rw [hstd] at hkey
    obtain ⟨hlower, hupper⟩ := hparts.exposes hf hkey
    have hlevel {e : Edge} (he : store.Exposes vars top e) (hi : e.index ≠ 1) :
        store.level e ∈ vars → top ≤ (store.level e).toNat := he.le_level hi
    have htop := topVar_of_every (Q := fun v => v ∈ vars → top ≤ v.toNat)
      ⟨hlevel hkey.condition, hlevel hkey.positive, hlevel hkey.negative⟩ hparts.inner
    have he := hbranch.exposes htop (ihlow hlower) (ihhigh hupper)
    exact he.of_index_eq (Edge.complementIf_index _ _)

end Operands

end Store

namespace Diagram

variable {store : Store} {vars own : Set Var} {top : Nat} {e low high : Edge} {v : Var}

theorem keepsExposed_branch (hs : store.Replayable) (hv : v ∈ vars → top ≤ v.toNat)
    (hlow : store.Exposes vars (max top v.toNat) low)
    (hhigh : store.Exposes vars (max top v.toNat) high) :
    Keeps (fun s e => s.Exposes vars top e) (branch v low high) store :=
  (mirrors_branch hs.alike (hlow.has hs.toFounded) (hhigh.has hs.toFounded)).yields.weaken
    fun _ _ _ hle he => he.2.exposes hv (hlow.mono hle) (hhigh.mono hle)

/-- A cube tests its variables in order if its literals are added in the opposite order. -/
theorem keepsExposed_foldlM_addLiteral (hs : store.Replayable) (he : store.Exposes vars top e)
    {literals : List Int} (hsorted : literals.Pairwise fun k l => l.natAbs ≤ k.natAbs)
    (hliterals : ∀ l ∈ literals, l.natAbs ≤ top ∧ l.natAbs.toUInt32.toNat = l.natAbs) :
    Keeps (fun s e => s.Exposes vars 0 e) (literals.foldlM addLiteral e) store := by
  induction literals generalizing store top e with
  | nil => exact yields_pure hs (he.lower (Nat.zero_le _))
  | cons l rest ih =>
    obtain ⟨⟨hle, hvar⟩, hrest⟩ := List.forall_mem_cons.1 hliterals
    obtain ⟨hless, hsorted⟩ := List.pairwise_cons.1 hsorted
    have hcube : store.Exposes vars (max l.natAbs l.natAbs.toUInt32.toNat) e :=
      he.lower (by rwa [hvar, max_self])
    have hadd : Keeps (fun s e => s.Exposes vars l.natAbs e) (addLiteral e l) store := by
      unfold addLiteral
      dsimp only
      split
      · exact keepsExposed_branch hs (fun _ => hvar.ge) hcube (.terminal rfl)
      · exact keepsExposed_branch hs (fun _ => hvar.ge) (.terminal rfl) hcube
    rw [List.foldlM_cons]
    exact Yields.bind hadd fun _ _ hs' _ he' =>
      ih hs' he' hsorted fun k hk => ⟨hless k hk, (hrest k hk).2⟩

theorem keepsExposed_cube (hs : store.Replayable) {literals : List Int}
    (hliterals : ∀ l ∈ literals, ∃ v ∈ own, ∃ value, l = Manager.signedLiteral v value) :
    Keeps (fun s e => s.Exposes vars 0 e) (cube literals) store := by
  unfold cube
  refine (mirrors_note hs.alike _ _).yields.bind fun _ now hnow _ _ => ?_
  have hone : now.Exposes vars UInt32.size .one := .terminal rfl
  refine keepsExposed_foldlM_addLiteral hnow hone (pairwise_mergeSort_natAbs literals)
    fun l hl => ?_
  obtain ⟨v, -, value, rfl⟩ := hliterals l ((List.mergeSort_perm literals _).mem_iff.1 hl)
  rw [var_signedLiteral, natAbs_signedLiteral]
  exact ⟨v.toNat_lt.le, rfl⟩

/-- The connectives keep variables exposed. -/
theorem kept_exposes (own vars : Set Var) : Kept own fun s e => s.Exposes vars 0 e where
  has he hf := he.has hf
  mono he hle := he.mono hle
  terminal hi := .terminal hi
  neg he := he.neg
  replays hf ht he := he.exposes hf ht
  literal hs _ := keepsExposed_branch hs (fun _ => Nat.zero_le _) (.terminal rfl) (.terminal rfl)
  cube hs hliterals := keepsExposed_cube hs hliterals

section Restriction

variable {value : Bool}

theorem keepsMemo_restrictWithin (depth : Nat) (hs : store.Replayable) (he : store.Within own e) :
    KeepsMemo (fun s e => s.Within own e) (restrictWithin v value depth e) store := by
  induction depth generalizing store e with
  | zero => exact yieldsMemo_lift (kept_within own) (yields_throw _)
  | succ depth ih =>
    have hf := hs.toFounded
    rw [restrictWithin]
    split
    · exact yieldsMemo_lift (kept_within own) (yields_throw _)
    refine YieldsMemo.of_current ?_
    dsimp only
    split
    · exact yieldsMemo_pure hs he
    split
    · exact yieldsMemo_pure hs (by split; exacts [he.high hf, he.low hf])
    next hlt hne =>
    have hi := Store.index_ne_one_of_level_lt
      (UInt32.lt_of_le_of_ne (UInt32.not_lt.1 hlt) (Ne.symm hne))
    refine keepsMemo_memoized hs ?_
    refine YieldsMemo.bind (ih hs (he.low hf)) fun low s₁ hs₁ hle₁ hlow => ?_
    refine YieldsMemo.bind (ih hs₁ ((he.high hf).mono hle₁)) fun high s₂ hs₂ hle₂ hhigh => ?_
    exact yieldsMemo_lift (kept_within own)
      (keepsWithin_branch hs₂ (he.level_mem hi) (hlow.mono hle₂) hhigh)

theorem keepsWithin_restrict (hs : store.Replayable) (he : store.Within own e) :
    Keeps (fun s e => s.Within own e) (restrict e v value) store :=
  (keepsMemo_restrictWithin e.index hs he).run'

theorem keepsWithin_compose (hs : store.Replayable) {f g : Edge} (hf : store.Within own f)
    (hg : store.Within own g) : Keeps (fun s e => s.Within own e) (compose f v g) store := by
  unfold compose
  refine (mirrors_note hs.alike _ _).yields.bind fun _ s₁ hs₁ hle₁ _ => ?_
  refine Yields.bind (keepsWithin_restrict hs₁ (hf.mono hle₁)) fun high s₂ hs₂ hle₂ hhigh => ?_
  have hle := hle₁.trans hle₂
  refine Yields.bind (keepsWithin_restrict hs₂ (hf.mono hle)) fun low s₃ hs₃ hle₃ hlow => ?_
  exact keeps_ite (kept_within own) hs₃ (hg.mono (hle.trans hle₃)) (hhigh.mono hle₃) hlow

end Restriction

section Replacement

variable {images : Substitution}

/-- Where variables are replaced, the diagram is put together again. It does not matter in which
order it was. -/
theorem keepsMemo_substituteWithin {P : Store → Edge → Prop} (hP : Kept .univ P) (depth : Nat)
    (hs : store.Replayable)
    (himages : ∀ (v : Var) (image : Edge), images[v]? = some image → P store image) :
    KeepsMemo P (substituteWithin images depth e) store := by
  induction depth generalizing store e with
  | zero => exact yieldsMemo_lift hP (yields_throw _)
  | succ depth ih =>
    rw [substituteWithin]
    split
    · next hterm => exact yieldsMemo_pure hs (hP.terminal (Edge.isTerminal_iff.1 hterm))
    refine YieldsMemo.bind (keepsMemo_memoized hs (YieldsMemo.of_current ?_))
      fun result later hlater _ hresult =>
        yieldsMemo_pure hlater (hP.complementIf hresult e.negated)
    dsimp only
    refine YieldsMemo.bind (ih hs himages) fun low s₁ hs₁ hle₁ hlow => ?_
    have himages₁ := fun v image h => hP.mono (himages v image h) hle₁
    refine YieldsMemo.bind (ih hs₁ himages₁) fun high s₂ hs₂ hle₂ hhigh => ?_
    have hlow₂ := hP.mono hlow hle₂
    cases hfound : images[(store.node e.index).var]? with
    | some image =>
      exact yieldsMemo_lift hP
        (keeps_ite hP hs₂ (hP.mono (himages₁ _ image hfound) hle₂) hhigh hlow₂)
    | none =>
      refine YieldsMemo.bind (yieldsMemo_lift hP (hP.literal hs₂ (Set.mem_univ _)))
        fun image s₃ hs₃ hle₃ himage => ?_
      exact yieldsMemo_lift hP
        (keeps_ite hP hs₃ himage (hP.mono hhigh hle₃) (hP.mono hlow₂ hle₃))

/-- Variables are exposed in every image of a substitution, or nothing is replaced. -/
theorem keeps_substitute {P : Store → Edge → Prop} (hP : Kept .univ P) (hs : store.Replayable)
    (himages : ∀ (v : Var) (image : Edge), images[v]? = some image → P store image)
    (he : images.isEmpty = true → P store e) : Keeps P (substitute e images) store := by
  unfold substitute
  refine (mirrors_note hs.alike _ _).yields.bind fun _ now hnow hle _ => ?_
  split
  · next hempty => exact yields_pure hnow (hP.mono (he hempty) hle)
  · exact (keepsMemo_substituteWithin hP e.index hnow
      fun v image h => hP.mono (himages v image h) hle).run'

end Replacement

section Quantification

/-- Only variables below the bound have been dropped. -/
theorem mem_dropWhile_of_le {left : List Var} (hleft : ∀ u ∈ vars, top ≤ u.toNat → u ∈ left)
    {u : Var} (hu : u ∈ vars) (hle : max top v.toNat ≤ u.toNat) :
    u ∈ left.dropWhile (· < v) := by
  by_contra hdrop
  have hlt := lt_of_not_mem_dropWhile (hleft u hu ((le_max_left _ _).trans hle)) hdrop
  exact absurd ((le_max_right _ _).trans hle) (UInt32.lt_iff_toNat_lt.1 hlt).not_ge

/-- Quantified variables that are exposed are not tested afterwards. The results that are kept on
the way may belong to other bounds, but none of them tests a quantified variable. -/
theorem keepsMemo_existsWithin (depth : Nat) {left : List Var} (hs : store.Replayable)
    (he : store.Within own e) (hexposes : store.Exposes vars top e)
    (hleft : ∀ u ∈ vars, top ≤ u.toNat → u ∈ left) (hsorted : left.Pairwise (· < ·)) :
    KeepsMemo (fun s e => s.Within (own \ vars) e) (existsWithin depth left e) store := by
  have hP := kept_within (own \ vars)
  induction depth generalizing store e top left with
  | zero => exact yieldsMemo_lift hP (yields_throw _)
  | succ depth ih =>
    have hf := hs.toFounded
    rw [existsWithin]
    split
    · next hterm => exact yieldsMemo_pure hs (.terminal (Edge.isTerminal_iff.1 hterm))
    next hterm =>
    have hi : e.index ≠ 1 := fun hi => hterm (Edge.isTerminal_iff.2 hi)
    have hleft' := fun u hu hle => mem_dropWhile_of_le (v := store.level e) (u := u) hleft hu hle
    have hsorted' := hsorted.sublist (List.dropWhile_sublist (· < store.level e))
    refine YieldsMemo.of_current ?_
    dsimp only
    cases hdrop : left.dropWhile (· < store.level e) with
    | nil =>
      rw [hdrop] at hleft'
      refine yieldsMemo_pure hs ?_
      refine (hexposes.raise fun _ => UInt32.le_refl _).within he fun u hu => ?_
      by_contra hge
      exact List.not_mem_nil (hleft' u hu (not_lt.1 hge))
    | cons w rest =>
      rw [hdrop] at hleft' hsorted'
      have hw := le_of_dropWhile_eq_cons hdrop
      refine keepsMemo_memoized hs ?_
      refine YieldsMemo.bind (ih hs (he.low hf) (hexposes.low hi) hleft' hsorted')
        fun low s₁ hs₁ hle₁ hlow => ?_
      have hhigh := ih hs₁ ((he.high hf).mono hle₁) ((hexposes.high hi).mono hle₁) hleft' hsorted'
      split
      · split
        · exact yieldsMemo_pure hs₁ hlow
        · exact YieldsMemo.bind hhigh fun high s₂ hs₂ hle₂ hhigh =>
            yieldsMemo_lift hP (keeps_disj hP hs₂ (hlow.mono hle₂) hhigh)
      · next hne =>
        refine YieldsMemo.bind hhigh fun high s₂ hs₂ hle₂ hhigh => ?_
        refine yieldsMemo_lift hP (keepsWithin_branch hs₂ ⟨he.level_mem hi, fun hmem => ?_⟩
          (hlow.mono hle₂) hhigh)
        have hlevel := hexposes.le_level hi hmem
        obtain heq | hrest := List.mem_cons.1 (hleft' _ hmem (max_le hlevel le_rfl))
        · exact hne heq.symm
        · exact UInt32.not_lt.2 hw ((List.pairwise_cons.1 hsorted').1 _ hrest)

theorem keepsWithin_quantifyExists (hs : store.Replayable) (quantified : List Var)
    (he : store.Within own e) (hexposes : store.Exposes vars 0 e)
    (hvars : ∀ v ∈ vars, v ∈ quantified) :
    Keeps (fun s e => s.Within (own \ vars) e) (quantifyExists e quantified) store := by
  unfold quantifyExists
  refine (mirrors_note hs.alike _ _).yields.bind fun _ now hnow hle _ => ?_
  exact (keepsMemo_existsWithin e.index hnow (he.mono hle) (hexposes.mono hle)
    (fun v hv _ => mem_sortedVars.2 (hvars v hv)) (pairwise_sortedVars quantified)).run'

theorem keepsWithin_quantifyForall (hs : store.Replayable) (quantified : List Var)
    (he : store.Within own e) (hexposes : store.Exposes vars 0 e)
    (hvars : ∀ v ∈ vars, v ∈ quantified) :
    Keeps (fun s e => s.Within (own \ vars) e) (quantifyForall e quantified) store :=
  Yields.bind (keepsWithin_quantifyExists hs quantified he.neg hexposes.neg hvars)
    fun _ _ hlater _ hr => yields_pure hlater hr.neg

end Quantification

end Diagram

end PlanningGame
