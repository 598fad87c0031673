import Mathlib
import PlanningGame.Diagram.Substitution
import PlanningGame.Proofs.Diagram.Ite

/-!
# Meaning of fixing and replacing variables

An operation that keeps results by edge has one meaning, which sends the function of an edge to
that of its result. The memo is right if it keeps only such results; this stays so while the store
grows. Fixing a variable, replacing one and replacing many at the same time are read off valuations
in which these variables have other values.
-/
namespace PlanningGame

namespace Valuation

theorem update_comm (a : Valuation) {v w : Var} (h : v ≠ w) (x y : Bool) :
    (a.update v x).update w y = (a.update w y).update v x := by
  funext u
  by_cases hu : u = w
  · subst hu
    simp [update, Ne.symm h]
  · by_cases hv : u = v <;> simp [update, hu, hv, h]

end Valuation

namespace Store

variable {store later : Store} {e : Edge}

/-- A diagram is below a variable if its set of valuations does not change with that variable and
those before it. -/
theorem Denotes.below (hr : store.Reduced) {P : Valuation → Prop} {v : Var}
    (h : store.Denotes e P) (hP : ∀ w ≤ v, ∀ a x, P (a.update w x) ↔ P a) : store.Below v e :=
  hr.below_of_ignores h.has fun w hw a x =>
    Bool.eq_iff_iff.2 (by rw [h.eval_iff, h.eval_iff, hP w hw])

theorem index_ne_one_of_level_lt {v : Var} (hv : store.level e < v) : e.index ≠ 1 := by
  intro hi
  rw [level_of_isTerminal hi] at hv
  exact UInt32.not_lt.2 (le_lastLevel v) hv

end Store

namespace Diagram

open Store.Soundness

variable {store : Store} {α β : Type} {sound : Store → Prop}

/-- Every kept result stands for what the operation makes of the function of its edge. -/
def Memo.Right (meaning : (Valuation → Bool) → Valuation → Prop) (store : Store) (memo : Memo) :
    Prop :=
  ∀ e result : Edge, memo[e]? = some result →
    store.Has e ∧ store.Denotes result (meaning (store.eval e))

variable {meaning : (Valuation → Bool) → Valuation → Prop}

theorem eval_eq_of_le {later : Store} (hr : store.Founded) (hle : store ≤ later) {e : Edge}
    (he : store.Has e) : later.eval e = store.eval e :=
  funext fun a => hr.eval_mono hle he a

theorem Memo.Right.mono {later : Store} {memo : Memo} (h : memo.Right meaning store)
    (hr : store.Founded) (hle : store ≤ later) : memo.Right meaning later := by
  intro e result hmemo
  obtain ⟨he, hresult⟩ := h e result hmemo
  exact ⟨he.mono hle, eval_eq_of_le hr hle he ▸ hresult.mono hr hle⟩

theorem Memo.right_empty : Memo.Right meaning store ∅ := by
  intro e result h
  simp at h

theorem Memo.Right.insert {memo : Memo} (h : memo.Right meaning store) {e result : Edge}
    (he : store.Has e) (hresult : store.Denotes result (meaning (store.eval e))) :
    Memo.Right meaning store (Std.HashMap.insert memo e result) := by
  intro f kept hkept
  rw [Std.HashMap.getElem?_insert] at hkept
  split at hkept
  · next heq =>
      obtain rfl := eq_of_beq heq
      obtain rfl := Option.some.inj hkept
      exact ⟨he, hresult⟩
  · exact h f kept hkept

/-- The operation does as described with every right memo and leaves it right. -/
def EnsuresMemoIn (sound : Store → Prop) (meaning : (Valuation → Bool) → Valuation → Prop)
    (op : MemoM α) (store : Store) (post : α → Store → Prop) : Prop :=
  ∀ memo : Memo, memo.Right meaning store →
    EnsuresIn sound (op.run memo) store fun answer later =>
      answer.2.Right meaning later ∧ post answer.1 later

/-- What an operation with a memo ensures in stores whose variables are ordered. -/
abbrev EnsuresMemo (meaning : (Valuation → Bool) → Valuation → Prop) (op : MemoM α)
    (store : Store) (post : α → Store → Prop) : Prop :=
  EnsuresMemoIn Store.Sound meaning op store post

theorem ensuresMemo_pure (hs : sound store) {answer : α} {post : α → Store → Prop}
    (h : post answer store) : EnsuresMemoIn sound meaning (pure answer) store post :=
  fun _ hmemo => ensures_pure hs ⟨hmemo, h⟩

theorem EnsuresMemoIn.bind {op : MemoM α} {next : α → MemoM β} {mid : α → Store → Prop}
    {post : β → Store → Prop} (h : EnsuresMemoIn sound meaning op store mid)
    (hnext : ∀ answer later, sound later → store ≤ later → mid answer later →
      EnsuresMemoIn sound meaning (next answer) later post) :
    EnsuresMemoIn sound meaning (op >>= next) store post := by
  intro memo hmemo
  rw [StateT.run_bind]
  exact (h memo hmemo).bind fun answer later hs hle ⟨hright, hmid⟩ =>
    hnext answer.1 later hs hle hmid answer.2 hright

section Lift

variable [Store.Soundness sound]

theorem EnsuresIn.lift {op : DiagramM α} {post : α → Store → Prop} (hs : sound store)
    (h : EnsuresIn sound op store post) : EnsuresMemoIn sound meaning (liftM op) store post := by
  intro memo hmemo
  change EnsuresIn sound (op >>= fun answer => pure (answer, memo)) store _
  exact h.bind fun _ _ hs' hle hpost =>
    ensures_pure hs' ⟨hmemo.mono (founded hs) hle, hpost⟩

/-- The store as it is now is read inside an operation with a memo. -/
theorem EnsuresMemoIn.of_current {next : Store → MemoM β} {post : β → Store → Prop}
    (hs : sound store) (h : EnsuresMemoIn sound meaning (next store) store post) :
    EnsuresMemoIn sound meaning (liftM current >>= next) store post :=
  (EnsuresIn.lift hs (ensures_current hs)).bind fun _ _ _ _ ⟨hnow, hlater⟩ => hnow ▸ hlater ▸ h

/-- Keeping results is harmless if what is computed has the meaning of the operation. -/
theorem ensuresMemo_memoized (hs : sound store) {e : Edge} {compute : MemoM Edge}
    (he : store.Has e)
    (h : EnsuresMemoIn sound meaning compute store fun result later =>
      later.Denotes result (meaning (store.eval e))) :
    EnsuresMemoIn sound meaning (memoized e compute) store fun result later =>
      later.Denotes result (meaning (store.eval e)) := by
  intro memo hmemo
  unfold memoized
  rw [StateT.run_bind]
  change EnsuresIn sound (pure (memo, memo) >>= _) store _
  rw [pure_bind]
  dsimp only
  cases hfound : memo[e]? with
  | some result => exact ensures_pure hs ⟨hmemo, (hmemo e result hfound).2⟩
  | none =>
    dsimp only
    rw [StateT.run_bind]
    refine (h memo hmemo).bind fun answer later hs' hle ⟨hright, hresult⟩ => ?_
    refine ensures_pure hs' ⟨hright.insert (he.mono hle) ?_, hresult⟩
    rwa [eval_eq_of_le (founded hs) hle he]

end Lift

theorem EnsuresMemoIn.run' {op : MemoM α} {post : α → Store → Prop}
    (h : EnsuresMemoIn sound meaning op store post) : EnsuresIn sound (op.run' ∅) store post :=
  EnsuresIn.map ((h ∅ Memo.right_empty).weaken fun _ _ _ _ hpost => hpost.2)

section Restrict

variable {v : Var} {value : Bool} {e : Edge}

/-- The function of a diagram with a variable fixed. -/
def fixed (v : Var) (value : Bool) (f : Valuation → Bool) : Valuation → Prop :=
  fun a => f (a.update v value) = true

/-- Fixing a later variable keeps a diagram below a variable. -/
theorem below_of_fixed {later : Store} {w : Var} {f g : Edge} (hs : store.Reduced)
    (hlater : later.Reduced) (hf : store.Has f) (hbelow : store.Below w f) (hlt : w < v)
    (hg : later.Denotes g (fixed v value (store.eval f))) : later.Below w g := by
  refine hg.below hlater fun u hu a x => ?_
  have huv : u ≠ v := UInt32.ne_of_lt (UInt32.lt_of_le_of_lt hu hlt)
  rw [fixed, fixed, Valuation.update_comm a huv, hs.ignores_of_below hf hbelow hu]

theorem ensures_restrictWithin (depth : Nat) (hs : store.Sound) (hv : v ≠ 0) (he : store.Has e)
    (hd : e.index ≤ depth) :
    EnsuresMemo (fixed v value) (restrictWithin v value depth e) store
      fun result later => later.Denotes result (fixed v value (store.eval e)) := by
  induction depth generalizing store e with
  | zero => exact absurd he.1 (by omega)
  | succ depth ih =>
    rw [restrictWithin, if_neg hv]
    refine EnsuresMemoIn.of_current hs ?_
    dsimp only
    split
    · next hlt =>
        have hig := hs.ignores_of_below he (Store.below_of_lt_level hlt) (UInt32.le_refl v)
        exact ensuresMemo_pure hs (he.denotes.congr fun a => by rw [fixed, hig])
    split
    · next heq =>
        subst heq
        have s := hs.founded.splits_level he
        have hlow := hs.ignores_of_below s.has_low (s.low_below hs.ordered) (UInt32.le_refl _)
        have hhigh := hs.ignores_of_below s.has_high (s.high_below hs.ordered) (UInt32.le_refl _)
        refine ensuresMemo_pure hs ?_
        cases value
        · exact s.has_low.denotes.congr fun a => by simp [fixed, s.eval_eq, hlow a false]
        · exact s.has_high.denotes.congr fun a => by simp [fixed, s.eval_eq, hhigh a true]
    next hlt hne =>
      have hgt : store.level e < v := by
        have := UInt32.not_lt.1 hlt
        exact (UInt32.lt_or_eq_of_le this).resolve_right fun h => hne h.symm
      have hi := Store.index_ne_one_of_level_lt hgt
      have hl := hs.founded.low_lt he hi
      have hh := hs.founded.high_lt he hi
      have s := hs.founded.splits_level he
      refine ensuresMemo_memoized hs he ?_
      apply (ih hs s.has_low (by omega)).bind
      intro low later₁ hs₁ hle₁ hlow
      apply (ih hs₁ (s.has_high.mono hle₁) (by omega)).bind
      intro high later₂ hs₂ hle₂ hhigh
      have hlow₂ := hlow.mono hs₁.toReduced hle₂
      rw [eval_eq_of_le hs.toReduced hle₁ s.has_high] at hhigh
      refine EnsuresIn.lift hs₂ ((ensures_branch hs₂ (hs.founded.level_ne_zero he) hlow₂ hhigh
        fun _ => ⟨below_of_fixed hs.toReduced hs₂.toReduced s.has_low
            (s.low_below hs.ordered) hgt hlow₂,
          below_of_fixed hs.toReduced hs₂.toReduced s.has_high
            (s.high_below hs.ordered) hgt hhigh⟩).weaken
          fun g later₃ _ _ hg => hg.congr fun a => ?_)
      simp only [fixed]
      rw [s.eval_eq, Valuation.update_of_ne a (UInt32.ne_of_lt hgt)]
      split <;> rfl

theorem ensures_restrict (hs : store.Sound) (hv : v ≠ 0) (he : store.Has e) :
    Ensures (restrict e v value) store
      fun result later => later.Denotes result fun a => store.eval e (a.update v value) = true :=
  (ensures_restrictWithin e.index hs hv he le_rfl).run'

theorem run_restrict_zero (he : store.Has e) (value : Bool) :
    (restrict e 0 value).run.run store = (.error (.breach .zeroVariable), store) := by
  obtain ⟨depth, hdepth⟩ := Nat.exists_eq_add_one_of_ne_zero (Nat.pos_iff_ne_zero.1 he.1)
  rw [restrict, hdepth]
  rfl

theorem ensures_compose {g : Edge} (hs : store.Sound) (hv : v ≠ 0) (he : store.Has e)
    (hg : store.Has g) :
    Ensures (compose e v g) store fun result later =>
      later.Denotes result fun a => store.eval e (a.update v (store.eval g a)) = true := by
  unfold compose
  refine ensures_note_bind hs _ _ fun now hnow hle => ?_
  apply (ensures_restrict hnow hv (he.mono hle)).bind
  intro e₁ later₁ hs₁ hle₁ h₁
  apply (ensures_restrict hs₁ hv (he.mono (hle.trans hle₁))).bind
  intro e₀ later₂ hs₂ hle₂ h₀
  have hg₂ := hg.denotes.mono hs.toReduced (hle.trans (hle₁.trans hle₂))
  refine (ensures_ite hs₂ hg₂ (h₁.mono hs₁.toReduced hle₂) h₀).weaken
    fun r later₃ _ _ hr => hr.congr fun a => ?_
  rw [hs.founded.eval_mono hle he, hs.founded.eval_mono (hle.trans hle₁) he]
  cases store.eval g a <;> simp

end Restrict

section Substitute

variable {images : Substitution} {e : Edge} [Store.Soundness sound]

/-- What a variable is replaced by is listed for it. -/
theorem mem_of_ofList_eq_some {entries : List (Var × Edge)} {v : Var}
    (h : (Std.TreeMap.ofList entries : Substitution)[v]? = some e) : (v, e) ∈ entries := by
  rw [Std.TreeMap.ofList_eq_insertMany_empty, Std.TreeMap.getElem?_insertMany_list,
    List.findSomeRev?_eq_findSome?_reverse, Std.TreeMap.getElem?_emptyc, Option.or_none] at h
  obtain ⟨⟨w, f⟩, hmem, hentry⟩ := List.exists_of_findSome?_eq_some h
  dsimp only at hentry
  split at hentry
  · next heq =>
    obtain rfl := Std.LawfulEqOrd.eq_of_compare heq
    exact Option.some.inj hentry ▸ List.mem_reverse.1 hmem
  · exact absurd hentry (by simp)

/-- The valuation after all mapped variables have taken the values of their images. -/
def replaced (store : Store) (images : Substitution) (a : Valuation) : Valuation :=
  fun v => match images[v]? with
    | some image => store.eval image a
    | none => a v

/-- All images are in the store. -/
def HasImages (store : Store) (images : Substitution) : Prop :=
  ∀ (v : Var) (image : Edge), images[v]? = some image → store.Has image

theorem HasImages.mono {later : Store} (h : HasImages store images) (hle : store ≤ later) :
    HasImages later images :=
  fun v image hv => (h v image hv).mono hle

theorem HasImages.replaced_eq {later : Store} (h : HasImages store images) (hr : store.Founded)
    (hle : store ≤ later) (a : Valuation) : replaced later images a = replaced store images a := by
  funext v
  unfold replaced
  split
  · next image hv => exact hr.eval_mono hle (h v image hv) a
  · rfl

/-- The image of a variable, which is the variable itself if it is not mapped. -/
theorem ensures_image (hs : sound store) (himages : HasImages store images) {v : Var}
    (hv : v ≠ 0) {next : Edge → DiagramM Edge} {post : Edge → Store → Prop}
    (h : ∀ image later, sound later → store ≤ later →
      later.Denotes image (fun a => replaced store images a v = true) →
      EnsuresIn sound (next image) later post) :
    EnsuresMemoIn sound meaning
      (match images[v]? with
        | some image => do
          let image ← pure image
          liftM (next image)
        | none => do
          let image ← liftM (literal v)
          liftM (next image)) store post := by
  cases hfound : images[v]? with
  | some image =>
    dsimp only
    rw [pure_bind]
    refine EnsuresIn.lift hs (h image store hs le_rfl ⟨himages v image hfound, fun a => ?_⟩)
    simp [replaced, hfound]
  | none =>
    apply (EnsuresIn.lift hs (ensures_literal hs hv)).bind
    intro image later hs' hle himage
    refine EnsuresIn.lift hs' (h image later hs' hle (himage.congr fun a => ?_))
    simp [replaced, hfound]

theorem ensures_substituteWithin (depth : Nat) (hs : sound store) (himages : HasImages store images)
    {origin : Store} (horigin : ∀ a, replaced store images a = replaced origin images a)
    (he : store.Has e) (hd : e.index ≤ depth) :
    EnsuresMemoIn sound (fun f a => f (replaced origin images a) = true)
      (substituteWithin images depth e) store fun result later =>
        later.Denotes result fun a => store.eval e (replaced origin images a) = true := by
  induction depth generalizing store e with
  | zero => exact absurd he.1 (by omega)
  | succ depth ih =>
    rw [substituteWithin]
    split
    · next hterm =>
        have hi := Edge.isTerminal_iff.1 hterm
        refine ensuresMemo_pure hs (he.denotes.congr fun a => ?_)
        obtain rfl | rfl := Edge.eq_of_index_eq_one hi <;> simp
    · next hterm =>
        have hi : e.index ≠ 1 := fun hi => hterm (Edge.isTerminal_iff.2 hi)
        have w := (founded hs).decides he hi
        have hreg : store.Has e.regular := he
        have hlow : store.Has (store.node e.index).low := ⟨w.low_pos, w.low_lt.le.trans he.2⟩
        have hhigh : store.Has (store.node e.index).high := ⟨w.high_pos, w.high_lt.le.trans he.2⟩
        have heval : ∀ a, store.eval e.regular a =
            if a (store.node e.index).var then store.eval (store.node e.index).high a
            else store.eval (store.node e.index).low a := fun a =>
          (founded hs).eval_inner (e := e.regular) hreg hi
        refine (ensuresMemo_memoized hs hreg ?_).bind fun result later hs' _ hresult => ?_
        · refine EnsuresMemoIn.of_current hs ?_
          apply (ih hs himages horigin hlow (by have := w.low_lt; omega)).bind
          intro low later₁ hs₁ hle₁ hlow₁
          apply (ih hs₁ (himages.mono hle₁)
            (fun a => (himages.replaced_eq (founded hs) hle₁ a).trans (horigin a))
            (hhigh.mono hle₁) (by have := w.high_lt; omega)).bind
          intro high later₂ hs₂ hle₂ hhigh₂
          have hle := hle₁.trans hle₂
          refine ensures_image hs₂ (himages.mono hle) w.var_ne_zero
            fun image later₃ hs₃ hle₃ himage => ?_
          refine (ensures_ite hs₃ himage (hhigh₂.mono (founded hs₂) hle₃)
            (hlow₁.mono (founded hs₁) (hle₂.trans hle₃))).weaken fun r later₄ _ _ hr =>
              hr.congr fun a => ?_
          rw [himages.replaced_eq (founded hs) hle, horigin, (founded hs).eval_mono hle₁ hhigh, heval]
          cases replaced origin images a (store.node e.index).var <;> simp
        · refine ensuresMemo_pure hs' ⟨(Store.has_complementIf _).2 hresult.has, fun a => ?_⟩
          have hval := hresult.eval_iff a
          rw [(founded hs').eval_complementIf hresult.has]
          conv_rhs => rw [← Edge.regular_complementIf e, (founded hs).eval_complementIf hreg]
          rw [Bool.eq_iff_iff.2 hval]

theorem ensures_substitute (hs : sound store) (himages : HasImages store images)
    (he : store.Has e) :
    EnsuresIn sound (substitute e images) store fun result later =>
      later.Denotes result fun a => store.eval e (replaced store images a) = true := by
  unfold substitute
  refine ensures_note_bind hs _ _ fun now hnow hle => ?_
  split
  · next hempty =>
      refine ensures_pure hnow ⟨he.mono hle, fun a => ?_⟩
      have : replaced store images a = a := by
        funext v
        simp [replaced, Std.TreeMap.getElem?_of_isEmpty hempty]
      rw [(founded hs).eval_mono hle he, this]
  · refine (ensures_substituteWithin e.index hnow (himages.mono hle)
      (himages.replaced_eq (founded hs) hle) (he.mono hle) le_rfl).run'.weaken
        fun r later _ _ hr => hr.congr fun a => ?_
    rw [(founded hs).eval_mono hle he]

end Substitute

end Diagram

end PlanningGame
