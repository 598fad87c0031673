import Mathlib
import PlanningGame.Proofs.Yields

/-!
# Runs in lockstep

Two operations are run from two states that are related in some way. Either the first uses up all
positions of its store, so that no room is left, or they end in the same way: with answers that
belong together, or with the same failure. The states reached are again related, and they extend the
given ones.

An operation in lockstep with itself keeps what every state has in common with itself.
-/
namespace PlanningGame

variable {σ α α' β β' γ : Type}

/-- What is read alike off related elements is read alike off the lists. -/
theorem map_eq_of_forall₂ {R : α → β → Prop} {f : α → γ} {g : β → γ} {l : List α} {l' : List β}
    (h : List.Forall₂ R l l') (hR : ∀ a b, R a b → g b = f a) : l'.map g = l.map f := by
  induction h with
  | nil => rfl
  | cons hab _ ih => rw [List.map_cons, List.map_cons, ih, hR _ _ hab]

variable [Preorder σ]

/-- The failure of an operation that has used up all positions. -/
abbrev Failure.full : Failure :=
  .breach .storeFull

/-- How two runs end that started from the states `s` and `t`. -/
inductive EndsAlike (alike : σ → σ → Prop) (room : σ → Prop) (post : α → β → σ → σ → Prop)
    (s t : σ) : Except Failure α × σ → Except Failure β × σ → Prop
  | full {s' : σ} {right : Except Failure β × σ} (hfull : ¬ room s') :
      EndsAlike alike room post s t (.error .full, s') right
  | failed {failure : Failure} {s' t' : σ} (h : alike s' t') (hle : s ≤ s') (hle' : t ≤ t') :
      EndsAlike alike room post s t (.error failure, s') (.error failure, t')
  | answered {a : α} {b : β} {s' t' : σ} (h : alike s' t') (hle : s ≤ s') (hle' : t ≤ t')
      (hpost : post a b s' t') : EndsAlike alike room post s t (.ok a, s') (.ok b, t')

/-- The operations end alike when they are run from the two states. -/
def Lockstep (alike : σ → σ → Prop) (room : σ → Prop) (op : ExceptT Failure (StateM σ) α)
    (op' : ExceptT Failure (StateM σ) β) (s t : σ) (post : α → β → σ → σ → Prop) : Prop :=
  EndsAlike alike room post s t (op.run.run s) (op'.run.run t)

variable {alike : σ → σ → Prop} {room : σ → Prop} {s t : σ} {op : ExceptT Failure (StateM σ) α}
  {op' : ExceptT Failure (StateM σ) α'}

theorem lockstep_pure {a : α} {a' : α'} {post : α → α' → σ → σ → Prop} (h : alike s t)
    (hpost : post a a' s t) : Lockstep alike room (pure a) (pure a') s t post :=
  .answered h le_rfl le_rfl hpost

theorem lockstep_throw (failure : Failure) {post : α → α' → σ → σ → Prop} (h : alike s t) :
    Lockstep alike room (throw failure : ExceptT Failure (StateM σ) α)
      (throw failure : ExceptT Failure (StateM σ) α') s t post :=
  .failed h le_rfl le_rfl

/-- Operations in two steps end alike if both steps do. -/
theorem Lockstep.bind {next : α → ExceptT Failure (StateM σ) β}
    {next' : α' → ExceptT Failure (StateM σ) β'} {mid : α → α' → σ → σ → Prop}
    {post : β → β' → σ → σ → Prop} (h : Lockstep alike room op op' s t mid)
    (hnext : ∀ a a' s' t', alike s' t' → s ≤ s' → t ≤ t' → mid a a' s' t' →
      Lockstep alike room (next a) (next' a') s' t' post) :
    Lockstep alike room (op >>= next) (op' >>= next') s t post := by
  unfold Lockstep at h ⊢
  rcases hleft : op.run.run s with ⟨outcome, s'⟩
  rcases hright : op'.run.run t with ⟨outcome', t'⟩
  rw [hleft, hright] at h
  cases h with
  | full hfull =>
    rw [run_bind_of_error hleft]
    exact .full hfull
  | failed h hle hle' =>
    rw [run_bind_of_error hleft, run_bind_of_error hright]
    exact .failed h hle hle'
  | answered h hle hle' hmid =>
    rw [run_bind_of_ok hleft, run_bind_of_ok hright]
    have hends := hnext _ _ s' t' h hle hle' hmid
    unfold Lockstep at hends
    generalize (next _).run.run s' = left at hends ⊢
    generalize (next' _).run.run t' = right at hends ⊢
    cases hends with
    | full hfull => exact .full hfull
    | failed h hle₂ hle₂' => exact .failed h (hle.trans hle₂) (hle'.trans hle₂')
    | answered h hle₂ hle₂' hpost => exact .answered h (hle.trans hle₂) (hle'.trans hle₂') hpost

theorem Lockstep.weaken {strong weak : α → α' → σ → σ → Prop}
    (h : Lockstep alike room op op' s t strong)
    (hw : ∀ a a' s' t', alike s' t' → s ≤ s' → t ≤ t' → strong a a' s' t' → weak a a' s' t') :
    Lockstep alike room op op' s t weak := by
  unfold Lockstep at h ⊢
  generalize op.run.run s = left at h ⊢
  generalize op'.run.run t = right at h ⊢
  cases h with
  | full hfull => exact .full hfull
  | failed h hle hle' => exact .failed h hle hle'
  | answered h hle hle' hpost => exact .answered h hle hle' (hw _ _ _ _ h hle hle' hpost)

theorem Lockstep.map {f : α → β} {f' : α' → β'} {post : β → β' → σ → σ → Prop}
    (h : Lockstep alike room op op' s t fun a a' s' t' => post (f a) (f' a') s' t') :
    Lockstep alike room (f <$> op) (f' <$> op') s t post := by
  rw [← bind_pure_comp, ← bind_pure_comp]
  exact h.bind fun _ _ _ _ h' _ _ hpost => lockstep_pure h' hpost

/-- What goes on to hold of each pair of answers holds of the lists of answers. -/
theorem lockstep_mapM {f : α → ExceptT Failure (StateM σ) β}
    {f' : α' → ExceptT Failure (StateM σ) β'} {R : α → α' → Prop} {post : β → β' → σ → σ → Prop}
    {l : List α} {l' : List α'} (h : alike s t)
    (hkeep : ∀ b b' s t s' t', post b b' s t → s ≤ s' → t ≤ t' → post b b' s' t')
    (hl : List.Forall₂ R l l')
    (hf : ∀ a a' s' t', R a a' → alike s' t' → s ≤ s' → t ≤ t' →
      Lockstep alike room (f a) (f' a') s' t' post) :
    Lockstep alike room (l.mapM f) (l'.mapM f') s t
      fun answers answers' s' t' => List.Forall₂ (fun b b' => post b b' s' t') answers answers' := by
  induction hl generalizing s t with
  | nil => exact lockstep_pure h .nil
  | cons ha _ ih =>
    rw [List.mapM_cons, List.mapM_cons]
    apply (hf _ _ s t ha h le_rfl le_rfl).bind
    intro b b' s₁ t₁ h₁ hle₁ hle₁' hb
    apply (ih h₁ fun c c' s' t' hc h' hle hle' =>
      hf c c' s' t' hc h' (hle₁.trans hle) (hle₁'.trans hle')).bind
    intro answers answers' s₂ t₂ h₂ hle₂ hle₂' hanswers
    exact lockstep_pure h₂ (.cons (hkeep b b' s₁ t₁ s₂ t₂ hb hle₂ hle₂') hanswers)

/-- The same list on both sides. -/
theorem lockstep_mapM_self {f : α → ExceptT Failure (StateM σ) β}
    {f' : α → ExceptT Failure (StateM σ) β'} {post : β → β' → σ → σ → Prop} {l : List α}
    (h : alike s t)
    (hkeep : ∀ b b' s t s' t', post b b' s t → s ≤ s' → t ≤ t' → post b b' s' t')
    (hf : ∀ a s' t', alike s' t' → s ≤ s' → t ≤ t' → Lockstep alike room (f a) (f' a) s' t' post) :
    Lockstep alike room (l.mapM f) (l.mapM f') s t
      fun answers answers' s' t' => List.Forall₂ (fun b b' => post b b' s' t') answers answers' :=
  lockstep_mapM h hkeep (List.forall₂_same.2 fun _ _ => rfl) fun a _ s' t' heq =>
    heq ▸ hf a s' t'

theorem lockstep_foldlM {f : β → α → ExceptT Failure (StateM σ) β}
    {f' : β' → α → ExceptT Failure (StateM σ) β'} {post : β → β' → σ → σ → Prop} {l : List α}
    {b : β} {b' : β'} (h : alike s t) (hb : post b b' s t)
    (hf : ∀ a ∈ l, ∀ b b' s' t', alike s' t' → s ≤ s' → t ≤ t' → post b b' s' t' →
      Lockstep alike room (f b a) (f' b' a) s' t' post) :
    Lockstep alike room (l.foldlM f b) (l.foldlM f' b') s t post := by
  induction l generalizing s t b b' with
  | nil => exact lockstep_pure h hb
  | cons a rest ih =>
    obtain ⟨ha, hrest⟩ := List.forall_mem_cons.1 hf
    rw [List.foldlM_cons, List.foldlM_cons]
    exact (ha b b' s t h le_rfl le_rfl hb).bind fun c c' s' t' h' hle hle' hc =>
      ih h' hc fun d hd e e' s₂ t₂ h₂ hle₂ hle₂' =>
        hrest d hd e e' s₂ t₂ h₂ (hle.trans hle₂) (hle'.trans hle₂')

section Reading

variable {post : α → α' → σ → σ → Prop} {later later' : σ} {a : α}

/-- An answer of the first run belongs to one of the second. -/
theorem Lockstep.exists_answer (h : Lockstep alike room op op' s t post)
    (hrun : op.run.run s = (.ok a, later)) :
    ∃ a' later', op'.run.run t = (.ok a', later') ∧ alike later later' ∧ t ≤ later' ∧
      post a a' later later' := by
  unfold Lockstep at h
  rw [hrun] at h
  generalize op'.run.run t = right at h ⊢
  cases h with
  | answered h _ hle' hpost => exact ⟨_, _, rfl, h, hle', hpost⟩

/-- While there is room, the first run delivers what the second does. -/
theorem Lockstep.exists_run {sound room' : σ → Prop} {post' : α' → σ → Prop}
    (h : Lockstep alike room op op' s t post) (h' : Delivers sound room' op' t post')
    (halike : ∀ s' t', alike s' t' → room' t') (hroom : room (op.run.run s).2) :
    ∃ a a' later later', op.run.run s = (.ok a, later) ∧ alike later later' ∧
      post a a' later later' ∧ post' a' later' := by
  obtain ⟨-, -, hpost', hanswers⟩ := h'
  unfold Lockstep at h
  generalize op.run.run s = left at h hroom ⊢
  generalize op'.run.run t = right at h hpost' hanswers
  cases h with
  | full hfull => exact absurd hroom hfull
  | failed h =>
    obtain ⟨_, hanswer⟩ := hanswers (halike _ _ h)
    exact absurd hanswer (by simp)
  | answered h _ _ hpost => exact ⟨_, _, _, _, rfl, h, hpost, hpost' _ rfl⟩

/-- A run that ends with an answer extends the state that it started from. -/
theorem Lockstep.le_of_answer (h : Lockstep alike room op op' s t post)
    (hrun : op.run.run s = (.ok a, later)) : s ≤ later := by
  unfold Lockstep at h
  rw [hrun] at h
  generalize op'.run.run t = right at h
  cases h with
  | answered _ hle => exact hle

/-- Unless it uses up all positions, an operation in lockstep with itself keeps what states have in
common with themselves. -/
theorem Lockstep.keeps {post : α → α → σ → σ → Prop} (h : Lockstep alike room op op s s post)
    (hroom : (op.run.run s).1 ≠ .error .full) :
    alike (op.run.run s).2 (op.run.run s).2 ∧ s ≤ (op.run.run s).2 := by
  unfold Lockstep at h
  generalize hleft : op.run.run s = left at h hroom
  obtain ⟨left, s'⟩ := left
  generalize hright : (left, s') = right at h
  cases h with
  | full => exact absurd (congrArg Prod.fst hright) hroom
  | failed h hle =>
    obtain rfl := congrArg Prod.snd hright
    exact ⟨h, hle⟩
  | answered h hle =>
    obtain rfl := congrArg Prod.snd hright
    exact ⟨h, hle⟩

end Reading

end PlanningGame
