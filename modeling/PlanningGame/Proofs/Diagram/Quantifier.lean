import Mathlib
import PlanningGame.Diagram.Quantifier
import PlanningGame.Proofs.Diagram.Substitution

/-!
# Meaning of quantification

Quantifying a set of variables gives the valuations that can be made true by changing these
variables only. On the way down, the variables left out are above the diagram, which does not depend
on them; so one meaning, for the set given at the start, fits all results kept by edge.
-/
namespace PlanningGame

/-- The second valuation differs from the first on the listed variables at most. -/
def Valuation.VariesOn (vars : List Var) (a b : Valuation) : Prop :=
  ∀ v : Var, v ∉ vars → b v = a v

namespace Valuation

variable {vars : List Var} {a b c : Valuation}

theorem VariesOn.refl (vars : List Var) (a : Valuation) : VariesOn vars a a :=
  fun _ _ => rfl

theorem VariesOn.symm (h : VariesOn vars a b) : VariesOn vars b a :=
  fun v hv => (h v hv).symm

theorem VariesOn.trans (h : VariesOn vars a b) (h' : VariesOn vars b c) : VariesOn vars a c :=
  fun v hv => (h' v hv).trans (h v hv)

theorem VariesOn.mono {more : List Var} (h : VariesOn vars a b) (hsub : vars ⊆ more) :
    VariesOn more a b :=
  fun v hv => h v fun hmem => hv (hsub hmem)

theorem variesOn_nil : VariesOn [] a b ↔ b = a :=
  ⟨fun h => funext fun v => h v List.not_mem_nil, fun h _ _ => congrFun h _⟩

theorem variesOn_update {v : Var} (hv : v ∈ vars) (value : Bool) :
    VariesOn vars a (a.update v value) :=
  fun w hw => update_of_ne a (fun h : w = v => hw (h ▸ hv)) value

theorem VariesOn.update {v : Var} (h : VariesOn vars a b) (value : Bool) :
    VariesOn vars (a.update v value) (b.update v value) := by
  intro w hw
  by_cases hwv : w = v
  · rw [hwv, update_self, update_self]
  · rw [update_of_ne _ hwv, update_of_ne _ hwv, h w hw]

theorem variesOn_cons {v : Var} :
    VariesOn (v :: vars) a b ↔ VariesOn vars (a.update v (b v)) b := by
  refine ⟨fun h w hw => ?_, fun h w hw => ?_⟩
  · by_cases hwv : w = v
    · rw [hwv, update_self]
    · rw [update_of_ne a hwv, h w (by simp [hwv, hw])]
  · have hwv : w ≠ v := fun heq => hw (heq ▸ List.mem_cons_self)
    rw [h w fun hmem => hw (List.mem_cons_of_mem _ hmem), update_of_ne a hwv]

/-- A change of the variables of two lists is a change of those of one and then of the other. -/
theorem variesOn_append {more : List Var} :
    VariesOn (vars ++ more) a c ↔ ∃ b, VariesOn more a b ∧ VariesOn vars b c := by
  constructor
  · intro h
    refine ⟨fun v => if v ∈ more then c v else a v, fun v hv => if_neg hv, fun v hv => ?_⟩
    by_cases hmem : v ∈ more
    · exact (if_pos hmem).symm
    · exact (h v (by simp [hv, hmem])).trans (if_neg hmem).symm
  · rintro ⟨b, hab, hbc⟩ v hv
    obtain ⟨hvars, hmore⟩ := not_or.1 (mt List.mem_append.2 hv)
    rw [hbc v hvars, hab v hmore]

end Valuation

namespace Store

variable {store : Store} {e : Edge} {vars : List Var}

/-- Changing variables that a diagram ignores does not change its value. -/
theorem eval_eq_of_variesOn (hig : ∀ v ∈ vars, store.Ignores e v) {a b : Valuation}
    (h : a.VariesOn vars b) : store.eval e b = store.eval e a := by
  induction vars generalizing a with
  | nil => rw [Valuation.variesOn_nil.1 h]
  | cons v rest ih =>
    rw [ih (fun w hw => hig w (List.mem_cons_of_mem _ hw)) (Valuation.variesOn_cons.1 h)]
    exact hig v List.mem_cons_self _ _

end Store

/-- Some change of the listed variables makes the function true. -/
def Valuation.someOn (vars : List Var) (f : Valuation → Bool) (a : Valuation) : Prop :=
  ∃ b, a.VariesOn vars b ∧ f b = true

namespace Valuation

variable {vars : List Var} {f g h : Valuation → Bool} {a : Valuation} {v : Var}

/-- A set of valuations that does not change with a variable. -/
def Blind (P : Valuation → Prop) (v : Var) : Prop :=
  ∀ (a : Valuation) (value : Bool), P (a.update v value) ↔ P a

/-- What holds of some change of the listed variables does not change with them, nor with those
that it did not change with before. -/
theorem Blind.exists {P : Valuation → Prop} (hv : v ∈ vars ∨ Blind P v) :
    Blind (fun a => ∃ b, a.VariesOn vars b ∧ P b) v := by
  intro a value
  by_cases hmem : v ∈ vars
  · refine exists_congr fun b => and_congr_left fun _ => ?_
    exact ⟨(variesOn_update hmem value).trans, (variesOn_update hmem value).symm.trans⟩
  · have hP := hv.resolve_left hmem
    refine ⟨fun ⟨b, hb, hPb⟩ => ⟨b.update v (a v), ?_, (hP b _).2 hPb⟩, fun ⟨b, hb, hPb⟩ =>
      ⟨b.update v value, hb.update value, (hP b value).2 hPb⟩⟩
    simpa using hb.update (v := v) (a v)

theorem Blind.forall {P : Valuation → Prop} (hv : v ∈ vars ∨ Blind P v) :
    Blind (fun a => ∀ b, a.VariesOn vars b → P b) v := by
  intro a value
  have hnot : v ∈ vars ∨ Blind (fun b => ¬ P b) v := hv.imp_right fun h b x => not_congr (h b x)
  simpa using not_congr (Blind.exists hnot a value)

/-- The set does not change with the quantified variables, nor with those that the function
ignores. -/
theorem someOn_update (hv : v ∈ vars ∨ ∀ a value, f (a.update v value) = f a) (value : Bool) :
    someOn vars f (a.update v value) ↔ someOn vars f a :=
  Blind.exists (hv.imp_right fun hf b value => by rw [hf]) a value

/-- A decision on a quantified variable is a choice. -/
theorem someOn_of_mem (hv : v ∈ vars)
    (hsplit : ∀ a, f a = if a v then h a else g a)
    (hg : ∀ a value, g (a.update v value) = g a) (hh : ∀ a value, h (a.update v value) = h a) :
    someOn vars f a ↔ someOn vars g a ∨ someOn vars h a := by
  refine ⟨fun ⟨b, hb, hfb⟩ => ?_, ?_⟩
  · rw [hsplit] at hfb
    split at hfb
    · exact .inr ⟨b, hb, hfb⟩
    · exact .inl ⟨b, hb, hfb⟩
  · rintro (⟨b, hb, hgb⟩ | ⟨b, hb, hhb⟩)
    · exact ⟨b.update v false, hb.trans (variesOn_update hv false), by simp [hsplit, hg, hgb]⟩
    · exact ⟨b.update v true, hb.trans (variesOn_update hv true), by simp [hsplit, hh, hhb]⟩

/-- A decision on another variable stays where it is. -/
theorem someOn_of_not_mem (hv : v ∉ vars) (hsplit : ∀ a, f a = if a v then h a else g a) :
    someOn vars f a ↔ if a v then someOn vars h a else someOn vars g a := by
  have key : ∀ b, a.VariesOn vars b → f b = if a v then h b else g b := by
    intro b hb
    rw [hsplit, hb v hv]
  split
  · next hav => exact exists_congr fun b => and_congr_right fun hb => by rw [key b hb, if_pos hav]
  · next hav => exact exists_congr fun b => and_congr_right fun hb => by rw [key b hb, if_neg hav]

theorem someOn_of_ignores (hf : ∀ b, a.VariesOn vars b → f b = f a) :
    someOn vars f a ↔ f a = true :=
  ⟨fun ⟨b, hb, hfb⟩ => hf b hb ▸ hfb, fun hfa => ⟨a, .refl vars a, hfa⟩⟩

end Valuation

namespace Diagram

variable {store : Store} {e : Edge}

theorem mem_sortedVars {vars : List Var} {v : Var} : v ∈ sortedVars vars ↔ v ∈ vars := by
  rw [sortedVars, Std.TreeSet.mem_toList, Std.TreeSet.mem_ofList, List.contains_iff_mem]

theorem pairwise_sortedVars (vars : List Var) : (sortedVars vars).Pairwise (· < ·) :=
  Std.TreeSet.ordered_toList.imp Std.compare_eq_lt.1

/-- Neither order nor repetition of the variables matters. -/
theorem sortedVars_congr {vars vars' : List Var} (h : ∀ v, v ∈ vars' ↔ v ∈ vars) :
    sortedVars vars' = sortedVars vars := by
  have hnodup : ∀ vars : List Var, (sortedVars vars).Nodup := fun vars =>
    (pairwise_sortedVars vars).imp UInt32.ne_of_lt
  have hperm : (sortedVars vars').Perm (sortedVars vars) := by
    refine (List.perm_ext_iff_of_nodup (hnodup vars') (hnodup vars)).2 fun v => ?_
    rw [mem_sortedVars, mem_sortedVars, h]
  refine hperm.eq_of_pairwise (fun v w _ _ hvw hwv => ?_) (pairwise_sortedVars vars')
    (pairwise_sortedVars vars)
  exact absurd (UInt32.lt_trans hvw hwv) (UInt32.lt_irrefl v)

theorem quantifyExists_congr {vars vars' : List Var} (h : ∀ v, v ∈ vars' ↔ v ∈ vars) (e : Edge) :
    quantifyExists e vars' = quantifyExists e vars := by
  unfold quantifyExists
  rw [sortedVars_congr h]

theorem quantifyForall_congr {vars vars' : List Var} (h : ∀ v, v ∈ vars' ↔ v ∈ vars) (e : Edge) :
    quantifyForall e vars' = quantifyForall e vars := by
  unfold quantifyForall
  rw [quantifyExists_congr h]

theorem lt_of_not_mem_dropWhile {vars : List Var} {u v : Var} (hu : u ∈ vars)
    (hdrop : u ∉ vars.dropWhile (· < v)) : u < v := by
  rw [← List.takeWhile_append_dropWhile (p := (· < v)) (l := vars), List.mem_append] at hu
  simpa using List.mem_takeWhile_imp (hu.resolve_right hdrop)

theorem le_of_dropWhile_eq_cons {vars rest : List Var} {v w : Var}
    (h : vars.dropWhile (· < v) = w :: rest) : v ≤ w := by
  have hhead := List.head_dropWhile_not (p := (· < v)) (l := vars) (by simp [h])
  simpa [h] using hhead

/-- The variables still in the list are increasing, and those no longer in it are above the
diagram. -/
structure Pending (store : Store) (vars pending : List Var) (e : Edge) : Prop where
  increasing : pending.Pairwise (· < ·)
  subset : pending ⊆ vars
  above : ∀ v ∈ vars, v ∉ pending → store.Below v e

theorem Pending.dropWhile {vars pending : List Var} (h : Pending store vars pending e) :
    Pending store vars (pending.dropWhile (· < store.level e)) e where
  increasing := h.increasing.sublist (List.dropWhile_sublist _)
  subset := fun _ hv => h.subset ((List.dropWhile_sublist _).mem hv)
  above := by
    intro v hv hdrop
    by_cases hmem : v ∈ pending
    · exact Store.below_of_lt_level (lt_of_not_mem_dropWhile hmem hdrop)
    · exact h.above v hv hmem

theorem Pending.mono {later : Store} {vars pending : List Var} (h : Pending store vars pending e)
    (he : store.Has e) (hle : store ≤ later) : Pending later vars pending e :=
  ⟨h.increasing, h.subset, fun v hv hp => (he.below_iff hle).2 (h.above v hv hp)⟩

/-- What is above an inner node is above its branches. -/
theorem Pending.of_below {vars pending : List Var} {child : Edge} (h : Pending store vars pending e)
    (hi : e.index ≠ 1) (hchild : store.Below (store.level e) child) :
    Pending store vars pending child where
  increasing := h.increasing
  subset := h.subset
  above := by
    intro v hv hp
    have hlt := (h.above v hv hp).resolve_left hi
    rw [← Store.level_of_inner hi] at hlt
    exact hchild.trans (UInt32.le_of_lt hlt)

/-- The topmost variable is not quantified if it is not the next one. -/
theorem Pending.level_not_mem {vars rest : List Var} {w : Var}
    (h : Pending store vars (w :: rest) e) (hi : e.index ≠ 1) (hle : store.level e ≤ w)
    (hne : ¬ w = store.level e) : store.level e ∉ vars := by
  intro hmem
  by_cases hpending : store.level e ∈ w :: rest
  · obtain heq | hrest := List.mem_cons.1 hpending
    · exact hne heq.symm
    · have := (List.pairwise_cons.1 h.increasing).1 _ hrest
      exact UInt32.not_lt.2 hle this
  · have := (h.above _ hmem hpending).resolve_left hi
    rw [← Store.level_of_inner hi] at this
    exact UInt32.lt_irrefl _ this

/-- Quantifying keeps a diagram below a variable. -/
theorem below_of_someOn {later : Store} {vars : List Var} {v : Var} {f g : Edge}
    (hs : store.Reduced) (hlater : later.Reduced) (hf : store.Has f) (hbelow : store.Below v f)
    (hg : later.Denotes g (Valuation.someOn vars (store.eval f))) : later.Below v g :=
  hg.below hlater fun _ hu _ x =>
    Valuation.someOn_update (.inr (hs.ignores_of_below hf hbelow hu)) x

theorem ensures_existsWithin {vars pending : List Var} (depth : Nat) (hs : store.Sound)
    (he : store.Has e) (hd : e.index ≤ depth) (hp : Pending store vars pending e) :
    EnsuresMemo (Valuation.someOn vars) (existsWithin depth pending e) store
      fun result later => later.Denotes result (Valuation.someOn vars (store.eval e)) := by
  induction depth generalizing store e pending with
  | zero => exact absurd he.1 (by omega)
  | succ depth ih =>
    rw [existsWithin]
    split
    · next hterm =>
        have hi := Edge.isTerminal_iff.1 hterm
        refine ensuresMemo_pure hs (he.denotes.congr fun a =>
          (Valuation.someOn_of_ignores fun b _ => ?_).symm)
        obtain rfl | rfl := Edge.eq_of_index_eq_one hi <;> simp
    next hterm =>
      have hi : e.index ≠ 1 := fun hi => hterm (Edge.isTerminal_iff.2 hi)
      have s := hs.founded.splits_level he
      have hl := hs.founded.low_lt he hi
      have hh := hs.founded.high_lt he hi
      have hpd := hp.dropWhile
      refine EnsuresMemoIn.of_current hs ?_
      dsimp only
      cases hdrop : pending.dropWhile (· < store.level e) with
      | nil =>
        rw [hdrop] at hpd
        have hig : ∀ v ∈ vars, store.Ignores e v := fun v hv =>
          hs.ignores_of_below he (hpd.above v hv List.not_mem_nil) (UInt32.le_refl v)
        exact ensuresMemo_pure hs (he.denotes.congr fun a =>
          (Valuation.someOn_of_ignores fun b hb => Store.eval_eq_of_variesOn hig hb).symm)
      | cons w rest =>
        rw [hdrop] at hpd
        have hw := le_of_dropWhile_eq_cons hdrop
        have hplow := hpd.of_below hi (s.low_below hs.ordered)
        have hphigh := hpd.of_below hi (s.high_below hs.ordered)
        have hglow : ∀ a x, store.eval (store.low e) (a.update (store.level e) x) =
            store.eval (store.low e) a :=
          hs.ignores_of_below s.has_low (s.low_below hs.ordered) (UInt32.le_refl _)
        have hghigh : ∀ a x, store.eval (store.high e) (a.update (store.level e) x) =
            store.eval (store.high e) a :=
          hs.ignores_of_below s.has_high (s.high_below hs.ordered) (UInt32.le_refl _)
        dsimp only
        refine ensuresMemo_memoized hs he ?_
        apply (ih hs s.has_low (by omega) hplow).bind
        intro low later₁ hs₁ hle₁ hlow
        have hnext : EnsuresMemo (Valuation.someOn vars)
            (existsWithin depth (w :: rest) (store.high e)) later₁ fun result later =>
              later.Denotes result (Valuation.someOn vars (store.eval (store.high e))) := by
          have := ih hs₁ (s.has_high.mono hle₁) (by omega) (hphigh.mono s.has_high hle₁)
          rwa [eval_eq_of_le hs.toReduced hle₁ s.has_high] at this
        split
        · next hwv =>
            have hmem : store.level e ∈ vars := hpd.subset (hwv ▸ List.mem_cons_self)
            have hsome := fun a =>
              Valuation.someOn_of_mem (a := a) hmem s.eval_eq hglow hghigh
            split
            · next hone =>
                subst hone
                refine ensuresMemo_pure hs₁ (hlow.congr fun a => ?_)
                rw [hsome a, iff_self_or]
                exact fun _ => (hlow.eval_iff a).1 (by simp)
            · refine hnext.bind fun high later₂ hs₂ hle₂ hhigh => ?_
              exact EnsuresIn.lift hs₂ ((ensures_disj hs₂ (hlow.mono hs₁.toReduced hle₂) hhigh).weaken
                fun _ _ _ _ hr => hr.congr fun a => (hsome a).symm)
        · next hwv =>
            refine hnext.bind fun high later₂ hs₂ hle₂ hhigh => ?_
            have hnot := hpd.level_not_mem hi hw hwv
            have hlow₂ := hlow.mono hs₁.toReduced hle₂
            refine EnsuresIn.lift hs₂ ((ensures_branch hs₂ (hs.founded.level_ne_zero he) hlow₂ hhigh
              fun _ => ⟨below_of_someOn hs.toReduced hs₂.toReduced s.has_low
                  (s.low_below hs.ordered) hlow₂,
                below_of_someOn hs.toReduced hs₂.toReduced s.has_high
                  (s.high_below hs.ordered) hhigh⟩).weaken fun _ _ _ _ hr => hr.congr fun a => ?_)
            exact (Valuation.someOn_of_not_mem hnot s.eval_eq).symm

theorem ensures_quantifyExists (hs : store.Sound) {P : Valuation → Prop} (he : store.Denotes e P)
    (vars : List Var) :
    Ensures (quantifyExists e vars) store fun result later =>
      later.Denotes result fun a => ∃ b, a.VariesOn vars b ∧ P b := by
  unfold quantifyExists
  dsimp only
  refine ensures_note_bind hs _ _ fun now hnow hle => ?_
  have hp : Pending now vars (sortedVars vars) e :=
    ⟨pairwise_sortedVars vars, fun _ hv => mem_sortedVars.1 hv,
      fun v hv hnot => absurd (mem_sortedVars.2 hv) hnot⟩
  refine (ensures_existsWithin e.index hnow (he.has.mono hle) le_rfl hp).run'.weaken
    fun r later _ _ hr => hr.congr fun a => ?_
  exact exists_congr fun b => and_congr_right fun _ => by
    rw [hs.founded.eval_mono hle he.has, he.eval_iff]

theorem ensures_quantifyForall (hs : store.Sound) {P : Valuation → Prop} (he : store.Denotes e P)
    (vars : List Var) :
    Ensures (quantifyForall e vars) store fun result later =>
      later.Denotes result fun a => ∀ b, a.VariesOn vars b → P b := by
  unfold quantifyForall
  apply (ensures_quantifyExists hs (he.neg hs.toReduced) vars).bind
  intro r later hs' _ hr
  exact ensures_pure hs' ((hr.neg hs'.toReduced).congr fun a => by simp)

end Diagram

end PlanningGame
