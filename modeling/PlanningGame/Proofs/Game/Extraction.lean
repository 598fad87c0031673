import Mathlib
import PlanningGame.Game.Strategy
import PlanningGame.Proofs.Diagram.Quantifier

/-!
# Extraction of strategies

The variables of the protagonist are fixed one after the other. Each gets the function that is true
where some move with the variables fixed before makes it true; then it is replaced by this function
in the moves. The functions together name one of the moves wherever there is one, and among these
the greatest, if the variables are compared in order and true is more than false. Where there is no
move they are all false. They read none of the variables of the protagonist, and none that the moves
do not see.
-/
namespace PlanningGame

/-- The first of the variables on which the valuations differ is true in the first valuation. -/
def Valuation.Outdoes (a b : Valuation) : List Var → Prop
  | [] => False
  | v :: rest => (a v = true ∧ b v = false) ∨ (a v = b v ∧ a.Outdoes b rest)

theorem Valuation.Outdoes.congr {a a' b b' : Valuation} {vars : List Var} (h : a.Outdoes b vars)
    (ha : ∀ v ∈ vars, a v = a' v) (hb : ∀ v ∈ vars, b v = b' v) : a'.Outdoes b' vars := by
  induction vars with
  | nil => exact h
  | cons v rest ih =>
    obtain ⟨hav, ha⟩ := List.forall_mem_cons.1 ha
    obtain ⟨hbv, hb⟩ := List.forall_mem_cons.1 hb
    unfold Outdoes at h ⊢
    rw [← hav, ← hbv]
    exact h.imp_right fun hrest => ⟨hrest.1, ih hrest.2 ha hb⟩

/-- Of two valuations one outdoes the other, unless they are the same on all the variables. -/
theorem Valuation.outdoes_or_eq (a b : Valuation) (vars : List Var) :
    a.Outdoes b vars ∨ b.Outdoes a vars ∨ ∀ v ∈ vars, a v = b v := by
  induction vars with
  | nil => exact .inr (.inr (by simp))
  | cons v rest ih =>
    by_cases heq : a v = b v
    · rcases ih with hab | hba | hrest
      · exact .inl (.inr ⟨heq, hab⟩)
      · exact .inr (.inl (.inr ⟨heq.symm, hba⟩))
      · exact .inr (.inr (List.forall_mem_cons.2 ⟨heq, hrest⟩))
    · cases ha : a v <;> simp_all [Outdoes]

end PlanningGame

namespace PlanningGame.Game

open Diagram

/-- The listed variables take the values of their functions; the others keep theirs. -/
def followed (store : Store) (functions : Substitution) (vars : List Var) (a : Valuation) :
    Valuation :=
  fun v => if v ∈ vars then replaced store functions a v else a v

theorem followed_nil (store : Store) (functions : Substitution) (a : Valuation) :
    followed store functions [] a = a :=
  funext fun _ => if_neg List.not_mem_nil

/-- New functions for the listed variables, which together choose one of the given moves wherever
there is one that differs on these variables only, and never one that another move outdoes. Where
there is none they are false. They read neither these variables nor those that the moves do not
see. -/
structure Chooses (store : Store) (vars : List Var) (before functions : Substitution)
    (M : Valuation → Prop) : Prop where
  images : HasImages store functions
  kept : ∀ v : Var, v ∉ vars → functions[v]? = before[v]?
  covers : ∀ v ∈ vars, functions[v]?.isSome = true
  ignores : ∀ u, u ∈ vars ∨ Valuation.Blind M u → ∀ v ∈ vars, ∀ g : Edge,
    functions[v]? = some g → store.Ignores g u
  chosen : ∀ a, (∃ b, a.VariesOn vars b ∧ M b) → M (followed store functions vars a)
  greatest : ∀ a b, a.VariesOn vars b → M b → ¬ b.Outdoes (followed store functions vars a) vars
  idle : ∀ a, (∀ b, a.VariesOn vars b → ¬ M b) →
    ∀ v ∈ vars, followed store functions vars a v = false

section Choice

variable {u v : Var} {rest : List Var} {M : Valuation → Prop} {g : Valuation → Bool}
  {a b : Valuation}

/-- The function of a variable does not see the variables that are fixed after it. -/
theorem choice_eq_of_variesOn
    (hg : ∀ a, g a = true ↔ ∃ c, (a.update v true).VariesOn rest c ∧ M c)
    (hab : a.VariesOn rest b) : g b = g a := by
  rw [Bool.eq_iff_iff, hg, hg]
  have hab' := hab.update (v := v) true
  exact exists_congr fun c => and_congr_left fun _ => ⟨hab'.trans, hab'.symm.trans⟩

/-- With its function put in for the variable there still is a move, if there was one. -/
theorem exists_move_of_choice (hv : v ∉ rest)
    (hg : ∀ a, g a = true ↔ ∃ c, (a.update v true).VariesOn rest c ∧ M c)
    (h : ∃ b, a.VariesOn (v :: rest) b ∧ M b) :
    ∃ b, a.VariesOn rest b ∧ M (b.update v (g b)) := by
  -- a move in which the variable has the value of its function
  obtain ⟨c, hac, hc⟩ : ∃ c, (a.update v (g a)).VariesOn rest c ∧ M c := by
    obtain ⟨b, hab, hb⟩ := h
    rw [Valuation.variesOn_cons] at hab
    cases hga : g a with
    | true => exact (hg a).1 hga
    | false =>
      cases hbv : b v with
      | true =>
        rw [hbv] at hab
        exact absurd ((hg a).2 ⟨b, hab, hb⟩) (by simp [hga])
      | false =>
        rw [hbv] at hab
        exact ⟨b, hab, hb⟩
  have hcv : c v = g a := by rw [hac v hv, Valuation.update_self]
  have hback : a.VariesOn rest (c.update v (a v)) := by
    simpa using hac.update (v := v) (a v)
  refine ⟨_, hback, ?_⟩
  rwa [choice_eq_of_variesOn hg hback, Valuation.update_update, ← hcv, Valuation.update_eq_self]

/-- The function of a variable reads neither this variable nor those that are fixed after it, and
none that the moves do not see. -/
theorem choice_update
    (hg : ∀ a, g a = true ↔ ∃ c, (a.update v true).VariesOn rest c ∧ M c)
    (hu : u ∈ v :: rest ∨ Valuation.Blind M u) (a : Valuation) (value : Bool) :
    g (a.update u value) = g a := by
  rw [Bool.eq_iff_iff, hg, hg]
  by_cases huv : u = v
  · rw [huv, Valuation.update_update]
  · have hu : u ∈ rest ∨ Valuation.Blind M u := hu.imp_left fun hmem =>
      (List.mem_cons.1 hmem).resolve_left huv
    rw [Valuation.update_comm a huv]
    exact Valuation.Blind.exists hu (a.update v true) value

/-- With its function put in for the variable, the moves do not see it any more. -/
theorem blind_of_choice (hu : u = v ∨ Valuation.Blind M u)
    (hg : ∀ (a : Valuation) (value : Bool), g (a.update u value) = g a) :
    Valuation.Blind (fun a => M (a.update v (g a))) u := by
  intro a value
  dsimp only
  rw [hg]
  by_cases huv : u = v
  · rw [huv, Valuation.update_update]
  · rw [Valuation.update_comm a huv]
    exact hu.resolve_left huv (a.update v (g a)) value

end Choice

variable {store : Store} {moves : Edge} {M : Valuation → Prop}

/-- Putting the value of its function in for a variable that is not fixed later. -/
theorem followed_cons {functions : Substitution} {v : Var} {rest : List Var} {g : Edge}
    (hv : functions[v]? = some g) (a : Valuation) :
    followed store functions (v :: rest) a =
      (followed store functions rest a).update v (store.eval g a) := by
  funext w
  by_cases hwv : w = v
  · subst hwv
    simp [followed, replaced, hv]
  · simp [followed, hwv, Valuation.update_of_ne _ hwv]

/-- The functions of the variables that are fixed later choose among the moves into which that of
the first is put. Together with it they choose among the moves. -/
theorem Chooses.cons {later : Store} {vars : List Var} {before functions : Substitution} {v : Var}
    {g : Edge}
    (h : Chooses later vars (before.insert v g) functions fun a =>
      M (a.update v (store.eval g a)))
    (hs : store.Sound) (hle : store ≤ later) (hv : v ∉ vars)
    (hg : store.Denotes g fun a => ∃ c, (a.update v true).VariesOn vars c ∧ M c) :
    Chooses later (v :: vars) before functions M := by
  have hfun : functions[v]? = some g := by
    rw [h.kept v hv, Std.TreeMap.getElem?_insert_self]
  have heval : ∀ a, later.eval g a = store.eval g a := hs.eval_mono hle hg.has
  have hfollowed : ∀ a, followed later functions (v :: vars) a =
      (followed later functions vars a).update v (store.eval g a) := fun a => by
    rw [followed_cons hfun, heval]
  have hvaries : ∀ a : Valuation, a.VariesOn vars (followed later functions vars a) :=
    fun a w hw => if_neg hw
  refine ⟨h.images, fun w hw => ?_, fun w hw => ?_, fun u hu w hw image himage => ?_,
    fun a hmove => ?_, fun a b hab hb houtdoes => ?_, fun a hnone w hw => ?_⟩
  · obtain ⟨hne, hwr⟩ := not_or.1 (mt List.mem_cons.2 hw)
    rw [h.kept w hwr, Std.TreeMap.getElem?_insert,
      if_neg fun heq => hne (Std.LawfulEqOrd.eq_of_compare heq).symm]
  · obtain rfl | hwr := List.mem_cons.1 hw
    · rw [hfun]
      rfl
    · exact h.covers w hwr
  · have hgu := choice_update hg.eval_iff hu
    obtain rfl | hwr := List.mem_cons.1 hw
    · obtain rfl := Option.some.inj (hfun.symm.trans himage)
      intro a value
      rw [heval, heval, hgu]
    · refine h.ignores u ?_ w hwr image himage
      by_cases hur : u ∈ vars
      · exact .inl hur
      · refine .inr (blind_of_choice (hu.imp_left fun hmem => ?_) hgu)
        exact (List.mem_cons.1 hmem).resolve_right hur
  · have key := h.chosen a (exists_move_of_choice hv hg.eval_iff hmove)
    rwa [choice_eq_of_variesOn hg.eval_iff (hvaries a), ← hfollowed] at key
  · rw [hfollowed, Valuation.Outdoes, Valuation.update_self] at houtdoes
    rw [Valuation.variesOn_cons] at hab
    rcases houtdoes with ⟨htrue, hfalse⟩ | ⟨heq, hrest⟩
    · -- a move in which the variable is true makes its function true
      rw [htrue] at hab
      exact absurd ((hg.eval_iff a).2 ⟨b, hab, hb⟩) (by simp [hfalse])
    · have hback : a.VariesOn vars (b.update v (a v)) := by
        simpa using hab.update (v := v) (a v)
      refine h.greatest a (b.update v (a v)) hback ?_ (hrest.congr (fun w hw => ?_) fun w hw => ?_)
      · rwa [choice_eq_of_variesOn hg.eval_iff hback, Valuation.update_update, ← heq,
          Valuation.update_eq_self]
      · exact (Valuation.update_of_ne b (ne_of_mem_of_not_mem hw hv) _).symm
      · exact Valuation.update_of_ne _ (ne_of_mem_of_not_mem hw hv) _
  · rw [hfollowed]
    obtain rfl | hwr := List.mem_cons.1 hw
    · rw [Valuation.update_self, ← Bool.not_eq_true, hg.eval_iff]
      rintro ⟨c, hac, hc⟩
      have hcw : c w = true := (hac w hv).trans (Valuation.update_self a w true)
      exact hnone c (Valuation.variesOn_cons.2 (hcw.symm ▸ hac)) hc
    · rw [Valuation.update_of_ne _ (ne_of_mem_of_not_mem hwr hv)]
      refine h.idle a (fun b hab => hnone _ ?_) w hwr
      rw [Valuation.variesOn_cons, Valuation.update_self]
      exact hab.update _

/-- Functions are extracted as long as there is room, unless a variable is zero. -/
theorem concludes_extractFrom {vars : List Var} (hs : store.Sound) (hmoves : store.Denotes moves M)
    {before : Substitution} (hbefore : HasImages store before) (hnodup : vars.Nodup)
    {fails : Failure → Store → Prop}
    (hfull : ∀ failure later, IsFull failure later → fails failure later)
    (hzero : ∀ later, (0 : Var) ∈ vars → fails (.breach .zeroVariable) later) :
    Concludes Store.Sound (extractFrom moves before vars) store (fun functions later =>
      Chooses later vars before functions M) fails := by
  induction vars generalizing store moves M before with
  | nil =>
    refine concludes_pure hs
      ⟨hbefore, fun _ _ => rfl, by simp, by simp, ?_, fun _ _ _ _ h => h, by simp⟩
    rintro a ⟨b, hab, hb⟩
    obtain rfl := Valuation.variesOn_nil.1 hab
    rwa [followed_nil]
  | cons v rest ih =>
    obtain ⟨hv, hrest⟩ := List.nodup_cons.1 hnodup
    rw [extractFrom]
    refine ((ensures_quantifyExists hs hmoves rest).concludes hfull).bind
      fun possible later₁ hs₁ hle₁ hpossible => ?_
    by_cases hv0 : v = 0
    · subst hv0
      have hrun := run_restrict_zero hpossible.has true
      have herror := run_bind_of_error hrun fun function => do
        let moves ← compose moves 0 function
        extractFrom moves (before.insert 0 function) rest
      exact concludes_of_error herror hs₁ (hzero _ List.mem_cons_self)
    refine ((ensures_restrict hs₁ hv0 hpossible.has).concludes hfull).bind
      fun g later₂ hs₂ hle₂ hg => ?_
    have hg := hg.congr fun a => hpossible.eval_iff _
    have hmoves₂ := (hmoves.mono hs.toReduced hle₁).mono hs₁.toReduced hle₂
    refine ((ensures_compose hs₂ hv0 hmoves₂.has hg.has).concludes hfull).bind
      fun moves' later₃ hs₃ hle₃ hmoves' => ?_
    have hg₃ := hg.mono hs₂.toReduced hle₃
    have himages : HasImages later₃ (before.insert v g) := by
      intro w image hw
      rw [Std.TreeMap.getElem?_insert] at hw
      split at hw
      · exact Option.some.inj hw ▸ hg₃.has
      · exact hbefore.mono ((hle₁.trans hle₂).trans hle₃) w image hw
    have hmoves' : later₃.Denotes moves' fun a => M (a.update v (later₃.eval g a)) :=
      hmoves'.congr fun a => by rw [hmoves₂.eval_iff, hs₂.eval_mono hle₃ hg.has]
    refine (ih hs₃ hmoves' himages hrest fun later hmem =>
      hzero later (List.mem_cons_of_mem v hmem)).weaken
        (fun functions later _ _ hle₄ hfun => ?_) fun _ _ _ h => h
    exact hfun.cons hs₃ hle₄ hv hg₃

theorem Chooses.isSome_iff {functions : Substitution} {vars : List Var}
    (h : Chooses store vars ∅ functions M) {v : Var} :
    functions[v]?.isSome = true ↔ v ∈ vars := by
  refine ⟨fun hsome => ?_, h.covers v⟩
  by_contra hv
  rw [h.kept v hv] at hsome
  exact absurd hsome (by simp)

theorem Chooses.congr {vars : List Var} {before functions : Substitution} {N : Valuation → Prop}
    (h : Chooses store vars before functions M) (hMN : ∀ a, M a ↔ N a) :
    Chooses store vars before functions N :=
  funext (fun a => propext (hMN a)) ▸ h

theorem Chooses.mono {later : Store} {vars : List Var} {before functions : Substitution}
    (h : Chooses store vars before functions M) (hr : store.Reduced) (hle : store ≤ later) :
    Chooses later vars before functions M := by
  have hfollowed : ∀ a, followed later functions vars a = followed store functions vars a :=
    fun a => by
      unfold followed
      rw [h.images.replaced_eq hr hle]
  refine ⟨h.images.mono hle, h.kept, h.covers, fun u hu v hv g hg a value => ?_, fun a hmove => ?_,
    fun a b hab hb => ?_, fun a hnone => ?_⟩
  · have hhas := h.images v g hg
    rw [hr.eval_mono hle hhas, hr.eval_mono hle hhas, h.ignores u hu v hv g hg]
  · rw [hfollowed]
    exact h.chosen a hmove
  · rw [hfollowed]
    exact h.greatest a b hab hb
  · rw [hfollowed]
    exact h.idle a hnone

/-- The extracted functions choose one of the moves wherever there is one. -/
theorem concludes_extract {game : Game} (hs : store.Sound) (hmoves : store.Denotes moves M)
    (hnodup : game.protagonistVars.Nodup) {fails : Failure → Store → Prop}
    (hfull : ∀ failure later, IsFull failure later → fails failure later)
    (hzero : ∀ later, (0 : Var) ∈ game.protagonistVars → fails (.breach .zeroVariable) later) :
    Concludes Store.Sound (game.extract moves) store (fun functions later =>
      Chooses later game.protagonistVars ∅ functions M) fails := by
  unfold extract
  apply (concludes_extractFrom hs hmoves (fun _ _ h => by simp at h) hnodup hfull hzero).bind
  intro functions later hs' _ hfun
  refine concludes_note_bind hs' _ _ fun last hlast hle => ?_
  exact concludes_pure hlast (hfun.mono hs'.toReduced hle)

end PlanningGame.Game
