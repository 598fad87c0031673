import Mathlib
import PlanningGame.Failure

/-!
# Operations that may fail

Many operations fail for reasons of their own. What is said of them is said of the answers they
give: the state reached is sound again, it extends the one before, and the answer is as described.
Some operations check what they are given. That they gave an answer then tells something about
their arguments, from whatever state they were run.

An operation whose checks are all passed may still run out of room. It then delivers an answer as
long as there is room in the state it reaches.
-/
namespace PlanningGame

variable {σ α β : Type}

theorem run_bind_of_ok {op : ExceptT Failure (StateM σ) α} {s later : σ} {answer : α}
    (h : op.run.run s = (.ok answer, later)) (next : α → ExceptT Failure (StateM σ) β) :
    (op >>= next).run.run s = (next answer).run.run later := by
  change (op.run >>= ExceptT.bindCont next).run s = _
  rw [StateT.run_bind, h]
  rfl

theorem run_bind_of_error {op : ExceptT Failure (StateM σ) α} {s later : σ} {failure : Failure}
    (h : op.run.run s = (.error failure, later)) (next : α → ExceptT Failure (StateM σ) β) :
    (op >>= next).run.run s = (.error failure, later) := by
  change (op.run >>= ExceptT.bindCont next).run s = _
  rw [StateT.run_bind, h]
  rfl

/-- An operation in two steps that gave an answer went through both. -/
theorem exists_run_of_bind {op : ExceptT Failure (StateM σ) α}
    {next : α → ExceptT Failure (StateM σ) β} {s last : σ} {answer : β}
    (hrun : (op >>= next).run.run s = (.ok answer, last)) :
    ∃ middle later, op.run.run s = (.ok middle, later) ∧
      (next middle).run.run later = (.ok answer, last) := by
  rcases hop : op.run.run s with ⟨failure | middle, later⟩
  · rw [run_bind_of_error hop] at hrun
    exact absurd (congrArg Prod.fst hrun) (by simp)
  · rw [run_bind_of_ok hop] at hrun
    exact ⟨middle, later, rfl, hrun⟩

/-- Whether an operation gives an answer that passes the test, together with the state reached. -/
def answersWith (op : ExceptT Failure (StateM σ) α) (s : σ) (test : α → σ → Bool) : Bool :=
  match op.run.run s with
  | (.ok answer, later) => test answer later
  | (.error _, _) => false

theorem exists_run_of_answersWith {op : ExceptT Failure (StateM σ) α} {s : σ}
    {test : α → σ → Bool} (h : answersWith op s test = true) :
    ∃ answer later, op.run.run s = (.ok answer, later) ∧ test answer later = true := by
  unfold answersWith at h
  split at h
  · next answer later hrun => exact ⟨answer, later, hrun, h⟩
  · exact absurd h (by simp)

variable [Preorder σ] {sound : σ → Prop} {s : σ}

/-- If the operation gives an answer then the state it reaches is sound and extends the given one,
and the answer is as described. -/
def Yields (sound : σ → Prop) (op : ExceptT Failure (StateM σ) α) (s : σ)
    (post : α → σ → Prop) : Prop :=
  ∀ answer later, op.run.run s = (.ok answer, later) → sound later ∧ s ≤ later ∧ post answer later

theorem yields_pure {answer : α} {post : α → σ → Prop} (hs : sound s) (h : post answer s) :
    Yields sound (pure answer) s post := by
  intro given later hrun
  obtain ⟨rfl, rfl⟩ : answer = given ∧ s = later := by
    change ((.ok answer : Except Failure α), s) = (.ok given, later) at hrun
    simpa using hrun
  exact ⟨hs, le_rfl, h⟩

theorem Yields.bind {op : ExceptT Failure (StateM σ) α} {next : α → ExceptT Failure (StateM σ) β}
    {mid : α → σ → Prop} {post : β → σ → Prop} (h : Yields sound op s mid)
    (hnext : ∀ answer later, sound later → s ≤ later → mid answer later →
      Yields sound (next answer) later post) : Yields sound (op >>= next) s post := by
  intro answer last hrun
  obtain ⟨middle, later, hop, hrun⟩ := exists_run_of_bind hrun
  obtain ⟨hsound, hle, hmid⟩ := h middle later hop
  obtain ⟨hsound', hle', hpost⟩ := hnext middle later hsound hle hmid answer last hrun
  exact ⟨hsound', hle.trans hle', hpost⟩

theorem Yields.weaken {op : ExceptT Failure (StateM σ) α} {strong weak : α → σ → Prop}
    (h : Yields sound op s strong)
    (hw : ∀ answer later, sound later → s ≤ later → strong answer later → weak answer later) :
    Yields sound op s weak := by
  intro answer later hrun
  obtain ⟨hsound, hle, hstrong⟩ := h answer later hrun
  exact ⟨hsound, hle, hw answer later hsound hle hstrong⟩

theorem yields_throw (failure : Failure) {post : α → σ → Prop} :
    Yields sound (throw failure : ExceptT Failure (StateM σ) α) s post := by
  intro answer later hrun
  change ((.error failure : Except Failure α), s) = (.ok answer, later) at hrun
  exact absurd (congrArg Prod.fst hrun) (by simp)

/-- What holds of each answer, and goes on to hold, holds of the list of answers. -/
theorem yields_mapM {f : α → ExceptT Failure (StateM σ) β} {post : α → β → σ → Prop} {l : List α}
    (hs : sound s)
    (hkeep : ∀ a b now later, sound now → now ≤ later → post a b now → post a b later)
    (hf : ∀ a ∈ l, ∀ now, sound now → s ≤ now → Yields sound (f a) now (post a)) :
    Yields sound (l.mapM f) s fun answers later =>
      List.Forall₂ (fun a b => post a b later) l answers := by
  induction l generalizing s with
  | nil => exact yields_pure hs .nil
  | cons a rest ih =>
    rw [List.mapM_cons]
    apply (hf a List.mem_cons_self s hs le_rfl).bind
    intro b now hnow hle hb
    apply (ih hnow fun c hc later hlater hle' =>
      hf c (List.mem_cons_of_mem _ hc) later hlater (hle.trans hle')).bind
    intro answers later hlater hle' hanswers
    exact yields_pure hlater (.cons (hkeep a b now later hnow hle' hb) hanswers)

/-- The state stays sound however often the operation is run. -/
theorem yields_mapM_sound {f : α → ExceptT Failure (StateM σ) β} {l : List α} (hs : sound s)
    (hf : ∀ a ∈ l, ∀ now, sound now → s ≤ now → Yields sound (f a) now fun _ _ => True) :
    Yields sound (l.mapM f) s fun _ _ => True :=
  (yields_mapM hs (fun _ _ _ _ _ _ _ => trivial) hf).weaken fun _ _ _ _ _ => trivial

section Concludes

variable {fails weaker : Failure → σ → Prop}

/-- The state reached is sound and extends the given one. An answer is as described, and so is a
failure. -/
structure Concludes (sound : σ → Prop) (op : ExceptT Failure (StateM σ) α) (s : σ)
    (post : α → σ → Prop) (fails : Failure → σ → Prop) : Prop where
  sound : sound (op.run.run s).2
  le : s ≤ (op.run.run s).2
  post : ∀ answer, (op.run.run s).1 = .ok answer → post answer (op.run.run s).2
  fails : ∀ failure, (op.run.run s).1 = .error failure → fails failure (op.run.run s).2

theorem concludes_pure {answer : α} {post : α → σ → Prop} (hs : sound s) (h : post answer s) :
    Concludes sound (pure answer) s post fails :=
  ⟨hs, le_rfl, fun _ heq => Except.ok.inj heq ▸ h,
    fun failure heq => absurd (show (Except.ok answer : Except Failure α) = .error failure from heq)
      (by simp)⟩

theorem concludes_of_error {op : ExceptT Failure (StateM σ) α} {failure : Failure}
    {post : α → σ → Prop} (hrun : op.run.run s = (.error failure, s)) (hs : sound s)
    (h : fails failure s) : Concludes sound op s post fails := by
  refine ⟨by rwa [hrun], by rw [hrun], fun answer heq => ?_, fun given heq => ?_⟩
  · rw [hrun] at heq
    exact absurd heq (by simp)
  · rw [hrun] at heq ⊢
    exact Except.error.inj heq ▸ h

theorem concludes_throw {failure : Failure} {post : α → σ → Prop} (hs : sound s)
    (h : fails failure s) :
    Concludes sound (throw failure : ExceptT Failure (StateM σ) α) s post fails :=
  concludes_of_error rfl hs h

theorem Concludes.bind {op : ExceptT Failure (StateM σ) α}
    {next : α → ExceptT Failure (StateM σ) β} {mid : α → σ → Prop} {post : β → σ → Prop}
    (h : Concludes sound op s mid fails)
    (hnext : ∀ answer later, sound later → s ≤ later → mid answer later →
      Concludes sound (next answer) later post fails) :
    Concludes sound (op >>= next) s post fails := by
  obtain ⟨hsound, hle, hmid, hfails⟩ := h
  rcases hop : op.run.run s with ⟨failure | answer, later⟩
  · rw [hop] at hsound hle hfails
    have hrun := run_bind_of_error hop next
    refine ⟨by rwa [hrun], by rwa [hrun], fun answer heq => ?_, fun given heq => ?_⟩
    · rw [hrun] at heq
      exact absurd heq (by simp)
    · rw [hrun] at heq ⊢
      obtain rfl := Except.error.inj heq
      exact hfails failure rfl
  · rw [hop] at hsound hle hmid
    have hrun := run_bind_of_ok hop next
    obtain ⟨hsound', hle', hpost, hfails'⟩ := hnext answer later hsound hle (hmid answer rfl)
    exact ⟨by rwa [hrun], by rw [hrun]; exact hle.trans hle', by rwa [hrun], by rwa [hrun]⟩

theorem Concludes.yields {op : ExceptT Failure (StateM σ) α} {post : α → σ → Prop}
    (h : Concludes sound op s post fails) : Yields sound op s post := by
  intro answer later hrun
  obtain ⟨hsound, hle, hpost, -⟩ := h
  rw [hrun] at hsound hle hpost
  exact ⟨hsound, hle, hpost answer rfl⟩

/-- What follows for every outcome holds of the outcome of a run. -/
theorem Concludes.holds {op : ExceptT Failure (StateM σ) α} {post : α → σ → Prop}
    {R : Except Failure α → Prop} {outcome : Except Failure α} {later : σ}
    (h : Concludes sound op s post fails) (hrun : op.run.run s = (outcome, later))
    (hpost : ∀ answer, post answer later → R (.ok answer))
    (hfails : ∀ failure, fails failure later → R (.error failure)) : R outcome := by
  obtain ⟨-, -, hanswer, hfailure⟩ := h
  rw [hrun] at hanswer hfailure
  cases outcome with
  | ok answer => exact hpost answer (hanswer answer rfl)
  | error failure => exact hfails failure (hfailure failure rfl)

theorem Concludes.weaken {op : ExceptT Failure (StateM σ) α} {strong weak : α → σ → Prop}
    (h : Concludes sound op s strong fails)
    (hw : ∀ answer later, op.run.run s = (.ok answer, later) → sound later → s ≤ later →
      strong answer later → weak answer later)
    (hf : ∀ failure later, s ≤ later → fails failure later → weaker failure later) :
    Concludes sound op s weak weaker :=
  ⟨h.sound, h.le, fun answer heq => hw answer _ (Prod.ext heq rfl) h.sound h.le (h.post answer heq),
    fun failure heq => hf failure _ h.le (h.fails failure heq)⟩

end Concludes

section Delivers

variable {room : σ → Prop}

/-- The state reached is sound and extends the given one, and an answer is as described. While there
is room left an answer is given. -/
structure Delivers (sound room : σ → Prop) (op : ExceptT Failure (StateM σ) α) (s : σ)
    (post : α → σ → Prop) : Prop where
  sound : sound (op.run.run s).2
  le : s ≤ (op.run.run s).2
  post : ∀ answer, (op.run.run s).1 = .ok answer → post answer (op.run.run s).2
  answers : room (op.run.run s).2 → ∃ answer, (op.run.run s).1 = .ok answer

theorem Delivers.exists_run {op : ExceptT Failure (StateM σ) α} {post : α → σ → Prop}
    (h : Delivers sound room op s post) (hroom : room (op.run.run s).2) :
    ∃ answer later, op.run.run s = (.ok answer, later) ∧ post answer later := by
  obtain ⟨answer, hanswer⟩ := h.answers hroom
  exact ⟨answer, _, Prod.ext hanswer rfl, h.post answer hanswer⟩

/-- To deliver is to fail only where there is no room. -/
theorem delivers_iff_concludes {op : ExceptT Failure (StateM σ) α} {post : α → σ → Prop} :
    Delivers sound room op s post ↔ Concludes sound op s post fun _ later => ¬ room later := by
  constructor
  · intro h
    refine ⟨h.sound, h.le, h.post, fun failure heq hroom => ?_⟩
    obtain ⟨answer, hanswer⟩ := h.answers hroom
    exact absurd (heq.symm.trans hanswer) (by simp)
  · intro h
    refine ⟨h.sound, h.le, h.post, fun hroom => ?_⟩
    rcases hop : (op.run.run s).1 with failure | answer
    · exact absurd hroom (h.fails failure hop)
    · exact ⟨answer, rfl⟩

/-- Where there is room, nothing needs to be known of failures. -/
theorem Delivers.concludes {op : ExceptT Failure (StateM σ) α} {post : α → σ → Prop}
    {fails : Failure → σ → Prop} (h : Delivers sound room op s post) :
    Concludes sound op s post fun failure later => room later → fails failure later :=
  (delivers_iff_concludes.1 h).weaken (fun _ _ _ _ _ hpost => hpost)
    fun _ _ _ hnot hroom => absurd hroom hnot

theorem Delivers.yields {op : ExceptT Failure (StateM σ) α} {post : α → σ → Prop}
    (h : Delivers sound room op s post) : Yields sound op s post :=
  (delivers_iff_concludes.1 h).yields

theorem delivers_pure {answer : α} {post : α → σ → Prop} (hs : sound s) (h : post answer s) :
    Delivers sound room (pure answer) s post :=
  delivers_iff_concludes.2 (concludes_pure hs h)

theorem Delivers.bind {op : ExceptT Failure (StateM σ) α}
    {next : α → ExceptT Failure (StateM σ) β} {mid : α → σ → Prop} {post : β → σ → Prop}
    (h : Delivers sound room op s mid)
    (hnext : ∀ answer later, sound later → s ≤ later → mid answer later →
      Delivers sound room (next answer) later post) :
    Delivers sound room (op >>= next) s post := by
  refine delivers_iff_concludes.2 ((delivers_iff_concludes.1 h).bind ?_)
  exact fun answer later hs hle hmid => delivers_iff_concludes.1 (hnext answer later hs hle hmid)

theorem Delivers.weaken {op : ExceptT Failure (StateM σ) α} {strong weak : α → σ → Prop}
    (h : Delivers sound room op s strong)
    (hw : ∀ answer later, sound later → s ≤ later → strong answer later → weak answer later) :
    Delivers sound room op s weak :=
  ⟨h.sound, h.le, fun answer heq => hw answer _ h.sound h.le (h.post answer heq), h.answers⟩

/-- Less may count as room. -/
theorem Delivers.mono {less : σ → Prop} {op : ExceptT Failure (StateM σ) α} {post : α → σ → Prop}
    (h : Delivers sound room op s post) (hless : ∀ s, less s → room s) :
    Delivers sound less op s post :=
  ⟨h.sound, h.le, h.post, fun hlater => h.answers (hless _ hlater)⟩

end Delivers

section Needs

variable {keeps : σ → Prop} {p q : Prop}

/-- The operation gives an answer only if the condition is met. It leads from states with the given
property to such states. -/
def Needs (keeps : σ → Prop) (op : ExceptT Failure (StateM σ) α) (p : Prop) : Prop :=
  ∀ s answer later, keeps s → op.run.run s = (.ok answer, later) → keeps later ∧ p

omit [Preorder σ]

theorem needs_pure (answer : α) (h : p) : Needs keeps (pure answer) p := by
  intro s given later hs hrun
  obtain ⟨-, rfl⟩ : answer = given ∧ s = later := by
    change ((.ok answer : Except Failure α), s) = (.ok given, later) at hrun
    simpa using hrun
  exact ⟨hs, h⟩

theorem needs_throw (failure : Failure) :
    Needs keeps (throw failure : ExceptT Failure (StateM σ) α) p := by
  intro s answer later _ hrun
  change ((.error failure : Except Failure α), s) = (.ok answer, later) at hrun
  exact absurd (congrArg Prod.fst hrun) (by simp)

theorem Needs.of_run_bind {op : ExceptT Failure (StateM σ) α}
    {next : α → ExceptT Failure (StateM σ) β} {last : σ} {answer : β} (h : Needs keeps op p)
    (hs : keeps s) (hrun : (op >>= next).run.run s = (.ok answer, last)) :
    ∃ middle later, (p ∧ keeps later) ∧ (next middle).run.run later = (.ok answer, last) := by
  obtain ⟨middle, later, hop, hrun⟩ := exists_run_of_bind hrun
  exact ⟨middle, later, (h s middle later hs hop).symm, hrun⟩

theorem Needs.bind {op : ExceptT Failure (StateM σ) α} {next : α → ExceptT Failure (StateM σ) β}
    (h : Needs keeps op p) (hnext : ∀ answer, p → Needs keeps (next answer) q) :
    Needs keeps (op >>= next) q := by
  intro s answer last hs hrun
  obtain ⟨middle, later, ⟨hp, hlater⟩, hrun⟩ := h.of_run_bind hs hrun
  exact hnext middle hp later answer last hlater hrun

theorem Needs.weaken {op : ExceptT Failure (StateM σ) α} (h : Needs keeps op p) (hpq : p → q) :
    Needs keeps op q := by
  intro s answer later hs hrun
  obtain ⟨hlater, hp⟩ := h s answer later hs hrun
  exact ⟨hlater, hpq hp⟩

/-- What the first step of an operation needs may be used to say what the operation yields. -/
theorem Yields.of_needs [Preorder σ] {sound : σ → Prop} {s : σ} {op : ExceptT Failure (StateM σ) α}
    {next : α → ExceptT Failure (StateM σ) β} {post : β → σ → Prop} (hneeds : Needs keeps op p)
    (hs : keeps s) (h : p → Yields sound (op >>= next) s post) :
    Yields sound (op >>= next) s post := by
  intro answer later hrun
  obtain ⟨_, _, ⟨hp, -⟩, -⟩ := hneeds.of_run_bind hs hrun
  exact h hp answer later hrun

theorem needs_mapM {f : α → ExceptT Failure (StateM σ) β} {p : α → Prop} {l : List α}
    (h : ∀ a ∈ l, Needs keeps (f a) (p a)) : Needs keeps (l.mapM f) (∀ a ∈ l, p a) := by
  induction l with
  | nil => exact needs_pure [] (by simp)
  | cons a rest ih =>
    rw [List.mapM_cons]
    apply (h a List.mem_cons_self).bind
    intro b ha
    apply (ih fun c hc => h c (List.mem_cons_of_mem _ hc)).bind
    intro answers hrest
    exact needs_pure _ (List.forall_mem_cons.2 ⟨ha, hrest⟩)

theorem needs_foldlM {f : β → α → ExceptT Failure (StateM σ) β} {p : α → Prop} {l : List α}
    (h : ∀ a ∈ l, ∀ b, Needs keeps (f b a) (p a)) (b : β) :
    Needs keeps (l.foldlM f b) (∀ a ∈ l, p a) := by
  induction l generalizing b with
  | nil => exact needs_pure b (by simp)
  | cons a rest ih =>
    rw [List.foldlM_cons]
    apply (h a List.mem_cons_self b).bind
    intro c ha
    apply (ih (fun d hd => h d (List.mem_cons_of_mem _ hd)) c).weaken
    exact fun hrest => List.forall_mem_cons.2 ⟨ha, hrest⟩

end Needs

end PlanningGame
