import Mathlib
import PlanningGame.Proofs.Lockstep
import PlanningGame.Proofs.Manager

/-!
# How operations fail

What is known of the answers of an operation may be used to say how the next one can fail. An
operation that passes all its checks fails only if it uses up all positions of its store. One that
goes through a list fails at the first element for which it does.
-/
namespace PlanningGame

section FailsOnly

variable {σ α β : Type} {s : σ} {op : ExceptT Failure (StateM σ) α}
  {next : α → ExceptT Failure (StateM σ) β} {allowed : Failure → Prop}

/-- Failures of the operation are among the given ones. -/
def FailsOnly (allowed : Failure → Prop) (op : ExceptT Failure (StateM σ) α) (s : σ) : Prop :=
  ∀ failure later, op.run.run s = (.error failure, later) → allowed failure

/-- The operation gives an answer, unless it uses up all positions. -/
abbrev Completes (op : ExceptT Failure (StateM σ) α) (s : σ) : Prop :=
  FailsOnly (· = .full) op s

theorem failsOnly_pure (answer : α) :
    FailsOnly allowed (pure answer : ExceptT Failure (StateM σ) α) s := by
  intro failure later hrun
  change ((.ok answer : Except Failure α), s) = (.error failure, later) at hrun
  exact absurd (congrArg Prod.fst hrun) (by simp)

theorem failsOnly_throw {failure : Failure} (h : allowed failure) :
    FailsOnly allowed (throw failure : ExceptT Failure (StateM σ) α) s := by
  intro given later hrun
  change ((.error failure : Except Failure α), s) = (.error given, later) at hrun
  exact Except.error.inj (congrArg Prod.fst hrun) ▸ h

theorem FailsOnly.weaken {weaker : Failure → Prop} (h : FailsOnly allowed op s)
    (hw : ∀ failure, allowed failure → weaker failure) : FailsOnly weaker op s :=
  fun failure later hrun => hw failure (h failure later hrun)

theorem FailsOnly.exists_answer (h : Completes op s) (hroom : (op.run.run s).1 ≠ .error .full) :
    ∃ answer later, op.run.run s = (.ok answer, later) := by
  rcases hrun : op.run.run s with ⟨failure | answer, later⟩
  · rw [hrun] at hroom
    exact absurd (congrArg _ (h failure later hrun)) hroom
  · exact ⟨answer, later, rfl⟩

variable [Preorder σ] {sound : σ → Prop} {mid : α → σ → Prop}

/-- The second step may rely on what the first yields. -/
theorem FailsOnly.bind (h : FailsOnly allowed op s) (hyields : Yields sound op s mid)
    (hnext : ∀ answer later, sound later → s ≤ later → mid answer later →
      FailsOnly allowed (next answer) later) : FailsOnly allowed (op >>= next) s := by
  intro failure last hrun
  rcases hop : op.run.run s with ⟨given | answer, later⟩
  · rw [run_bind_of_error hop] at hrun
    obtain ⟨heq, rfl⟩ := Prod.mk.inj hrun
    obtain rfl := Except.error.inj heq
    exact h given later hop
  · rw [run_bind_of_ok hop] at hrun
    obtain ⟨hlater, hle, hmid⟩ := hyields answer later hop
    exact hnext answer later hlater hle hmid failure last hrun

/-- The operation fails at the first element for which it does. -/
theorem failsOnly_mapM_first {f : α → ExceptT Failure (StateM σ) β} {fails : α → Failure → Prop}
    {holds : α → Prop} {l : List α} (hs : sound s)
    (hf : ∀ a ∈ l, ∀ now, sound now → s ≤ now →
      FailsOnly (fails a) (f a) now ∧ Yields sound (f a) now fun _ _ => holds a) :
    FailsOnly (fun failure => ∃ before a after, l = before ++ a :: after ∧
      (∀ b ∈ before, holds b) ∧ fails a failure) (l.mapM f) s := by
  induction l generalizing s with
  | nil => exact failsOnly_pure []
  | cons a rest ih =>
    rw [List.mapM_cons]
    obtain ⟨hfails, hyields⟩ := hf a List.mem_cons_self s hs le_rfl
    have hfirst := hfails.weaken fun failure ha =>
      (⟨[], a, rest, rfl, by simp, ha⟩ : ∃ before b after, a :: rest = before ++ b :: after ∧
        (∀ c ∈ before, holds c) ∧ fails b failure)
    refine hfirst.bind hyields fun b now hnow hle ha => ?_
    have hrest : ∀ c ∈ rest, ∀ later, sound later → now ≤ later →
        FailsOnly (fails c) (f c) later ∧ Yields sound (f c) later fun _ _ => holds c :=
      fun c hc later hlater hle' =>
        hf c (List.mem_cons_of_mem _ hc) later hlater (hle.trans hle')
    have hyields : Yields sound (rest.mapM f) now fun _ _ => True :=
      yields_mapM_sound hnow fun c hc later hlater hle' =>
        (hrest c hc later hlater hle').2.weaken fun _ _ _ _ _ => trivial
    refine ((ih hnow hrest).weaken ?_).bind hyields fun answers _ _ _ _ => failsOnly_pure _
    rintro failure ⟨before, c, after, rfl, hbefore, hc⟩
    exact ⟨a :: before, c, after, rfl, List.forall_mem_cons.2 ⟨ha, hbefore⟩, hc⟩

theorem failsOnly_mapM {f : α → ExceptT Failure (StateM σ) β} {post : α → β → σ → Prop} {l : List α}
    (hs : sound s)
    (hf : ∀ a ∈ l, ∀ now, sound now → s ≤ now →
      FailsOnly allowed (f a) now ∧ Yields sound (f a) now (post a)) :
    FailsOnly allowed (l.mapM f) s := by
  have hfirst := failsOnly_mapM_first hs fun a ha now hnow hle =>
    ⟨(hf a ha now hnow hle).1, (hf a ha now hnow hle).2.weaken fun _ _ _ _ _ => trivial⟩
  exact hfirst.weaken fun failure ⟨_, _, _, _, _, hfailure⟩ => hfailure

/-- The operation gives an answer as described, unless it uses up all positions. -/
structure Answers (sound : σ → Prop) (op : ExceptT Failure (StateM σ) α) (s : σ)
    (post : α → σ → Prop) : Prop where
  completes : Completes op s
  yields : Yields sound op s post

theorem Answers.weaken {strong weak : α → σ → Prop} (h : Answers sound op s strong)
    (hw : ∀ answer later, sound later → s ≤ later → strong answer later → weak answer later) :
    Answers sound op s weak :=
  ⟨h.completes, h.yields.weaken hw⟩

theorem Answers.completes_bind (h : Answers sound op s mid)
    (hnext : ∀ answer later, sound later → s ≤ later → mid answer later →
      Completes (next answer) later) : Completes (op >>= next) s :=
  FailsOnly.bind h.completes h.yields hnext

theorem Answers.bind {post : β → σ → Prop} (h : Answers sound op s mid)
    (hnext : ∀ answer later, sound later → s ≤ later → mid answer later →
      Answers sound (next answer) later post) : Answers sound (op >>= next) s post where
  completes := h.completes_bind fun answer later hlater hle hmid =>
    (hnext answer later hlater hle hmid).completes
  yields := h.yields.bind fun answer later hlater hle hmid =>
    (hnext answer later hlater hle hmid).yields

theorem answers_pure {answer : α} {post : α → σ → Prop} (hs : sound s) (h : post answer s) :
    Answers sound (pure answer) s post :=
  ⟨failsOnly_pure answer, yields_pure hs h⟩

theorem Concludes.answers {post : α → σ → Prop} {fails : Failure → σ → Prop}
    (h : Concludes sound op s post fails) (hfails : ∀ failure later, fails failure later →
      failure = .full) : Answers sound op s post :=
  ⟨fun failure _ hrun => hfails _ _ (h.fails failure (congrArg Prod.fst hrun)), h.yields⟩

/-- An operation in lockstep with one that fails in no other way gives an answer unless it uses up
all positions. -/
theorem Lockstep.completes {α' : Type} {op' : ExceptT Failure (StateM σ) α'} {t : σ}
    {alike : σ → σ → Prop} {room : σ → Prop} {post : α → α' → σ → σ → Prop}
    (h : Lockstep alike room op op' s t post)
    (h' : Completes op' t) : Completes op s := by
  intro failure later hrun
  unfold Lockstep at h
  rw [hrun] at h
  generalize hright : op'.run.run t = right at h
  cases h with
  | full => rfl
  | failed => exact h' failure _ hright

theorem answers_mapM {f : α → ExceptT Failure (StateM σ) β} {post : α → β → σ → Prop} {l : List α}
    (hs : sound s)
    (hkeep : ∀ a b now later, sound now → now ≤ later → post a b now → post a b later)
    (hf : ∀ a ∈ l, ∀ now, sound now → s ≤ now → Answers sound (f a) now (post a)) :
    Answers sound (l.mapM f) s fun answers later =>
      List.Forall₂ (fun a b => post a b later) l answers where
  completes := failsOnly_mapM hs fun a ha now hnow hle =>
    ⟨(hf a ha now hnow hle).completes, (hf a ha now hnow hle).yields⟩
  yields := yields_mapM hs hkeep fun a ha now hnow hle => (hf a ha now hnow hle).yields

end FailsOnly

/-- What is ensured of every answer is answered while there is room. -/
theorem Diagram.EnsuresIn.completes {α : Type} {sound : Store → Prop} {op : DiagramM α}
    {store : Store} {post : α → Store → Prop} (h : EnsuresIn sound op store post) :
    Completes op store := by
  intro failure later hrun
  have hfails : Concludes sound op store post fun failure _ => failure = .full :=
    h.concludes fun _ _ hfull => hfull.1
  exact hfails.fails failure (congrArg Prod.fst hrun)

theorem Diagram.EnsuresIn.answers {α : Type} {sound : Store → Prop} {op : DiagramM α}
    {store : Store} {post : α → Store → Prop} (h : EnsuresIn sound op store post) :
    Answers sound op store post :=
  ⟨h.completes, h.yields⟩

namespace Manager

variable {α β : Type} {registry : Registry} {manager : Manager} {id : BlockId} {vars : List Var}
  {labels : List (String × Nat)} {allowed : Failure → Prop} {sound : Store → Prop}

theorem failsOnly_lift {op : DiagramM α} (h : FailsOnly allowed op manager.store) :
    FailsOnly allowed (liftM op : ManagerM α) manager := by
  intro failure later hrun
  rw [run_lift] at hrun
  exact h failure _ (Prod.ext (Prod.mk.inj hrun).1 rfl)

theorem answers_lift (hm : StandsIn sound registry manager) {op : DiagramM α}
    {post : α → Store → Prop} (h : Answers sound op manager.store post) :
    Answers (StandsIn sound registry) (liftM op : ManagerM α) manager
      fun answer later => post answer later.store :=
  ⟨failsOnly_lift h.completes, yields_lift hm h.yields⟩

theorem failsOnly_note_bind [Store.Silent sound] (hm : StandsIn sound registry manager)
    (level : Level) (message : Unit → String) {next : Unit → ManagerM β}
    (h : ∀ later, StandsIn sound registry later → manager ≤ later →
      FailsOnly allowed (next ()) later) :
    FailsOnly allowed (note level message >>= next) manager := by
  intro failure last hrun
  let noted : Manager := ⟨manager.store.note level message, manager.registry⟩
  have hnote : (note level message).run.run manager = (.ok (), noted) := rfl
  rw [run_bind_of_ok hnote] at hrun
  have hnoted : StandsIn sound registry noted :=
    ⟨Store.Silent.note level message hm.sound, hm.registry_eq⟩
  exact h noted hnoted ⟨manager.store.le_note level message, le_rfl⟩ failure last hrun

theorem answers_note_bind [Store.Silent sound] (hm : StandsIn sound registry manager)
    (level : Level) (message : Unit → String) {next : Unit → ManagerM β}
    {post : β → Manager → Prop} (h : ∀ later, StandsIn sound registry later → manager ≤ later →
      Answers (StandsIn sound registry) (next ()) later post) :
    Answers (StandsIn sound registry) (note level message >>= next) manager post where
  completes := failsOnly_note_bind hm level message fun later hlater hle =>
    (h later hlater hle).completes
  yields := yields_note_bind hm level message fun later hlater hle => (h later hlater hle).yields

theorem failsOnly_diagrams_bind {next : Store → ManagerM β}
    (h : FailsOnly allowed (next manager.store) manager) :
    FailsOnly allowed (diagrams >>= next) manager :=
  h

theorem failsOnly_get_bind {next : Manager → ManagerM β}
    (h : FailsOnly allowed (next manager) manager) : FailsOnly allowed (get >>= next) manager :=
  h

theorem failsOnly_block_bind (hm : StandsIn sound registry manager) {block : Block}
    (hblock : registry.block? id = some block) {next : Block → ManagerM β}
    (h : FailsOnly allowed (next block) manager) :
    FailsOnly allowed (Manager.block id >>= next) manager := by
  intro failure later hrun
  rw [run_bind_of_ok (run_block (hm.registry_eq ▸ hblock))] at hrun
  exact h failure later hrun

theorem completes_newProductBlock {ids : List BlockId} {blocks : List Block}
    (hblocks : manager.registry.findBlocks? ids = some blocks) :
    Completes (newProductBlock ids) manager := by
  intro failure later hrun
  obtain ⟨message, hok⟩ := run_newProductBlock_of_some hblocks
  exact absurd (congrArg Prod.fst (hok.symm.trans hrun)) (by simp)

/-- Named state variables are refused only if a name is repeated. -/
theorem failsOnly_newNamedStateVars (names : List String) :
    FailsOnly (fun failure => ∃ name, firstRepeat names = some name ∧
      failure = .refused (.duplicateVariable name)) (newNamedStateVars names) manager := by
  intro failure later hrun
  cases hrepeat : firstRepeat names with
  | some name =>
    rw [run_newNamedStateVars_of_some hrepeat] at hrun
    exact ⟨name, rfl, (Except.error.inj (congrArg Prod.fst hrun)).symm⟩
  | none =>
    obtain ⟨message, hok⟩ := run_newNamedStateVars_of_none manager hrepeat
    exact absurd (congrArg Prod.fst (hok.symm.trans hrun)) (by simp)

/-- Names are refused only if the registry refuses them. -/
theorem failsOnly_claimVars (role : Role) (names : List String) :
    FailsOnly (fun failure => ∃ error, (manager.registry.claimAll role names).1 = .error error ∧
      failure = .refused error) (claimVars role names) manager := by
  intro failure later hrun
  rw [run_claimVars] at hrun
  cases hclaim : (manager.registry.claimAll role names).1 with
  | error error =>
    rw [hclaim] at hrun
    exact ⟨error, rfl, (Except.error.inj (congrArg Prod.fst hrun)).symm⟩
  | ok vars =>
    rw [hclaim] at hrun
    exact absurd (congrArg Prod.fst hrun) (by simp [Except.mapError])

variable [Store.Soundness sound] (hm : StandsIn sound registry manager)
  (hid : Owns registry id vars)
include hm hid

theorem completes_stateBit {place : Nat} (hplace : place < vars.length) :
    Completes (stateBit id place) manager := by
  obtain ⟨labels, hblock⟩ := hid.block
  unfold stateBit
  refine failsOnly_block_bind hm hblock ?_
  dsimp only
  rw [List.getElem?_eq_getElem hplace]
  exact failsOnly_lift
    (Diagram.ensures_literal hm.sound (hid.ne_zero _ (List.getElem_mem hplace))).completes

theorem answers_stateBit {place : Nat} (hplace : place < vars.length) :
    Answers (StandsIn sound registry) (stateBit id place) manager fun e later =>
      later.store.Denotes e fun a => (vars.map a)[place]? = some true :=
  ⟨completes_stateBit hm hid hplace,
    (yields_stateBit hm hid place).weaken fun _ _ _ _ he => he.2⟩

theorem completes_stateCube {state : List Bool} (hstate : vars.length = state.length) :
    Completes (stateCube id state) manager := by
  obtain ⟨labels, hblock⟩ := hid.block
  unfold stateCube
  refine failsOnly_block_bind hm hblock ?_
  dsimp only
  rw [if_pos hstate]
  exact failsOnly_lift
    (Diagram.ensures_assignmentCube hm.sound hid.nodup hid.ne_zero hstate.symm).completes

end Manager

end PlanningGame
