import Mathlib
import PlanningGame.Proofs.Manager
import PlanningGame.Proofs.Diagram.Twins

/-!
# Properties that the operations keep

What is written in a diagram is more than its function tells, if the variables come in any order.
It is read off the nodes: where computed results are all there, each of them was put together from
the branches of its operands. So a property of diagrams that literals and cubes have, and that an
answer which is there takes over from its operands, is one that all connectives keep.
-/
namespace PlanningGame

/-- All three diagrams of a triple have the property. -/
structure Triple.Every (P : Edge → Prop) (triple : Triple) : Prop where
  condition : P triple.condition
  positive : P triple.positive
  negative : P triple.negative

/-- All diagrams of a standard form have the property. -/
def Triple.Standard.Every (P : Edge → Prop) : Triple.Standard → Prop
  | .settled e => P e
  | .reduced t _ => t.Every P

namespace Store

variable {P : Edge → Prop} {triple t : Triple} {store : Store}

theorem every_plainPositive (hconst : ∀ e : Edge, e.index = 1 → P e) {f g : Edge} (hg : P g) :
    P (plainPositive f g) := by
  unfold plainPositive
  split_ifs
  · exact hconst _ rfl
  · exact hconst _ rfl
  · exact hg

theorem every_plainNegative (hconst : ∀ e : Edge, e.index = 1 → P e) {f h : Edge} (hh : P h) :
    P (plainNegative f h) := by
  unfold plainNegative
  split_ifs
  · exact hconst _ rfl
  · exact hconst _ rfl
  · exact hh

/-- The standard form is made of the parts of the triple, of their negations and of constants. -/
theorem every_standard (hconst : ∀ e : Edge, e.index = 1 → P e) (hneg : ∀ e : Edge, P e → P (-e))
    (h : triple.Every P) : triple.standard.Every P := by
  obtain ⟨f, g, h⟩ := triple
  obtain ⟨hf, hg, hh⟩ := h
  dsimp only at hf hg hh
  rw [standard_eq]
  have hg' := every_plainPositive (f := f) hconst hg
  have hh' := every_plainNegative (f := f) hconst hh
  generalize plainPositive f g = g' at *
  generalize plainNegative f h = h' at *
  dsimp only
  split_ifs
  · exact hg
  · exact hh
  · exact hg'
  · exact hf
  · exact hneg _ hf
  · exact ⟨hneg _ hf, hneg _ hh', hneg _ hg'⟩
  · exact ⟨hneg _ hf, hh', hg'⟩
  · exact ⟨hf, hneg _ hg', hneg _ hh'⟩
  · exact ⟨hf, hg', hh'⟩

/-- What holds of the levels of all proper diagrams of a triple holds of its topmost variable. -/
theorem topVar_of_every {Q : Var → Prop} (h : t.Every fun e => e.index ≠ 1 → Q (store.level e))
    (hcond : t.condition.index ≠ 1) : Q (store.topVar t) := by
  by_cases htop : store.topVar t = store.level t.condition
  · rw [htop]
    exact h.condition hcond
  · rcases topVar_eq store t with heq | heq | heq
    · exact absurd heq htop
    · rw [heq]
      exact h.positive (index_ne_one_of_topVar_eq heq htop)
    · rw [heq]
      exact h.negative (index_ne_one_of_topVar_eq heq htop)

theorem Replayable.alike (h : store.Replayable) : Alike store store :=
  ⟨rfl, h, h⟩

instance : Silent Replayable :=
  ⟨fun level message hs => hs.note level message⟩

end Store

namespace Diagram

/-- An operation that ends like itself keeps computed results there. -/
theorem Mirrors.yields {α : Type} {op : DiagramM α} {store : Store} {post : α → Store → Prop}
    (h : Mirrors op op store store post) : PlanningGame.Yields Store.Replayable op store post := by
  intro answer later hrun
  unfold Mirrors at h
  rw [hrun] at h
  exact ⟨h.alike.left, h.le, h.post answer rfl⟩

theorem yields_current_bind {α : Type} {sound : Store → Prop} {store : Store}
    {next : Store → DiagramM α} {post : α → Store → Prop}
    (h : PlanningGame.Yields sound (next store) store post) :
    PlanningGame.Yields sound (current >>= next) store post :=
  h

/-- A property of diagrams that goes on to hold. Constants have it, and so have literals and cubes
on the given variables. An if-then-else whose answer is there takes it over from its operands. -/
structure Kept (vars : Set Var) (P : Store → Edge → Prop) : Prop where
  has {store : Store} {e : Edge} : P store e → store.Founded → store.Has e
  mono {store later : Store} {e : Edge} : P store e → store ≤ later → P later e
  terminal {store : Store} {e : Edge} : e.index = 1 → P store e
  neg {store : Store} {e : Edge} : P store e → P store (-e)
  replays {store : Store} {triple : Triple} {e : Edge} :
    store.Founded → triple.Every (P store) → store.Replays triple e → P store e
  literal {store : Store} {v : Var} : store.Replayable → v ∈ vars →
    PlanningGame.Yields Store.Replayable (literal v) store fun e later => P later e
  cube {store : Store} {literals : List Int} : store.Replayable →
    (∀ l ∈ literals, ∃ v ∈ vars, ∃ value, l = Manager.signedLiteral v value) →
    PlanningGame.Yields Store.Replayable (cube literals) store fun e later => P later e

theorem Kept.complementIf {vars : Set Var} {P : Store → Edge → Prop} (hP : Kept vars P)
    {store : Store} {e : Edge} (he : P store e) (mark : Bool) : P store (e.complementIf mark) := by
  cases mark with
  | false => exact he
  | true => exact hP.neg he

section Connectives

variable {vars : Set Var} {P : Store → Edge → Prop} {store : Store} {f g h : Edge}
  {edges : List Edge}

/-- If the operation gives an answer then the answer has the property. -/
abbrev Keeps (P : Store → Edge → Prop) (op : DiagramM Edge) (store : Store) : Prop :=
  PlanningGame.Yields Store.Replayable op store fun e later => P later e

theorem yields_ite_replays (hs : store.Replayable) (ht : store.HasTriple ⟨f, g, h⟩) :
    PlanningGame.Yields Store.Replayable (ite f g h) store
      fun e later => later.Replays ⟨f, g, h⟩ e :=
  (mirrors_iteWithin _ hs.alike ht (Nat.lt_succ_self _)).yields.weaken fun _ _ _ _ he => he.2

variable (hP : Kept vars P)
include hP

theorem keeps_assignmentCube (hs : store.Replayable) {places : List Var}
    (hplaces : ∀ v ∈ places, v ∈ vars) (values : List Bool) :
    Keeps P (Manager.assignmentCube places values) store := by
  have hliterals : ∀ l ∈ (places.zip values).map fun p => Manager.signedLiteral p.1 p.2,
      ∃ v ∈ vars, ∃ value, l = Manager.signedLiteral v value :=
    List.forall_mem_map.2 fun p hp => ⟨p.1, hplaces _ (List.of_mem_zip hp).1, p.2, rfl⟩
  rw [List.map_zip_eq_zipWith] at hliterals
  exact hP.cube hs hliterals

theorem keeps_ite (hs : store.Replayable) (hf : P store f) (hg : P store g) (hh : P store h) :
    Keeps P (ite f g h) store := by
  have hfounded := hs.toFounded
  refine (yields_ite_replays hs ⟨hP.has hf hfounded, hP.has hg hfounded,
    hP.has hh hfounded⟩).weaken fun e later hs' hle he => ?_
  exact hP.replays hs'.toFounded ⟨hP.mono hf hle, hP.mono hg hle, hP.mono hh hle⟩ he

theorem keeps_conj (hs : store.Replayable) (hf : P store f) (hg : P store g) :
    Keeps P (conj f g) store :=
  keeps_ite hP hs hf hg (hP.terminal rfl)

theorem keeps_disj (hs : store.Replayable) (hf : P store f) (hg : P store g) :
    Keeps P (disj f g) store :=
  keeps_ite hP hs hf (hP.terminal rfl) hg

theorem keeps_imply (hs : store.Replayable) (hf : P store f) (hg : P store g) :
    Keeps P (imply f g) store :=
  keeps_ite hP hs hf hg (hP.terminal rfl)

theorem keeps_conjFrom (hs : store.Replayable) (hf : P store f) (hedges : ∀ e ∈ edges, P store e) :
    Keeps P (conjFrom f edges) store := by
  induction edges generalizing store f with
  | nil => exact yields_pure hs hf
  | cons g rest ih =>
    obtain ⟨hg, hrest⟩ := List.forall_mem_cons.1 hedges
    rw [conjFrom]
    refine Yields.bind (keeps_conj hP hs hf hg) fun e later hs' hle he => ?_
    split
    · exact yields_pure hs' he
    · exact ih hs' he fun e he => hP.mono (hrest e he) hle

theorem keeps_conjAll (hs : store.Replayable) (hedges : ∀ e ∈ edges, P store e) :
    Keeps P (conjAll edges) store :=
  keeps_conjFrom hP hs (hP.terminal rfl) hedges

theorem keeps_disjFrom (hs : store.Replayable) (hf : P store f) (hedges : ∀ e ∈ edges, P store e) :
    Keeps P (disjFrom f edges) store := by
  induction edges generalizing store f with
  | nil => exact yields_pure hs hf
  | cons g rest ih =>
    obtain ⟨hg, hrest⟩ := List.forall_mem_cons.1 hedges
    rw [disjFrom]
    refine Yields.bind (keeps_disj hP hs hf hg) fun e later hs' hle he => ?_
    split
    · exact yields_pure hs' he
    · exact ih hs' he fun e he => hP.mono (hrest e he) hle

theorem keeps_disjAll (hs : store.Replayable) (hedges : ∀ e ∈ edges, P store e) :
    Keeps P (disjAll edges) store :=
  keeps_disjFrom hP hs (hP.terminal rfl) hedges

end Connectives

section Memos

variable {α β : Type} {P : Store → Edge → Prop} {store : Store}

/-- If kept results have the property when the operation starts then they also have it when it
ends. -/
def YieldsMemo (P : Store → Edge → Prop) (op : MemoM α) (store : Store)
    (post : α → Store → Prop) : Prop :=
  ∀ memo : Memo, (∀ e result : Edge, memo[e]? = some result → P store result) →
    PlanningGame.Yields Store.Replayable (op.run memo) store fun answer later =>
      (∀ e result : Edge, answer.2[e]? = some result → P later result) ∧ post answer.1 later

/-- If the operation gives an answer then it and all kept results have the property. -/
abbrev KeepsMemo (P : Store → Edge → Prop) (op : MemoM Edge) (store : Store) : Prop :=
  YieldsMemo P op store fun e later => P later e

theorem yieldsMemo_pure (hs : store.Replayable) {answer : α} {post : α → Store → Prop}
    (h : post answer store) : YieldsMemo P (pure answer) store post :=
  fun _ hmemo => yields_pure hs ⟨hmemo, h⟩

theorem YieldsMemo.bind {op : MemoM α} {next : α → MemoM β} {mid : α → Store → Prop}
    {post : β → Store → Prop} (h : YieldsMemo P op store mid)
    (hnext : ∀ answer later, later.Replayable → store ≤ later → mid answer later →
      YieldsMemo P (next answer) later post) : YieldsMemo P (op >>= next) store post := by
  intro memo hmemo
  rw [StateT.run_bind]
  exact (h memo hmemo).bind fun answer later hlater hle hmid =>
    hnext answer.1 later hlater hle hmid.2 answer.2 hmid.1

theorem YieldsMemo.of_current {next : Store → MemoM α} {post : α → Store → Prop}
    (h : YieldsMemo P (next store) store post) :
    YieldsMemo P (liftM current >>= next) store post :=
  h

theorem yieldsMemo_lift {vars : Set Var} (hP : Kept vars P) {op : DiagramM α}
    {post : α → Store → Prop}
    (h : PlanningGame.Yields Store.Replayable op store post) :
    YieldsMemo P (liftM op) store post := by
  intro memo hmemo
  change PlanningGame.Yields _ (op >>= fun answer => pure (answer, memo)) store _
  exact h.bind fun _ _ hlater hle hpost =>
    yields_pure hlater ⟨fun e result he => hP.mono (hmemo e result he) hle, hpost⟩

theorem keepsMemo_memoized (hs : store.Replayable) {e : Edge} {compute : MemoM Edge}
    (h : KeepsMemo P compute store) : KeepsMemo P (memoized e compute) store := by
  intro memo hmemo
  unfold memoized
  rw [StateT.run_bind]
  change PlanningGame.Yields _ (pure (memo, memo) >>= _) store _
  rw [pure_bind]
  dsimp only
  cases hfound : memo[e]? with
  | some result => exact yields_pure hs ⟨hmemo, hmemo e result hfound⟩
  | none =>
    dsimp only
    rw [StateT.run_bind]
    refine (h memo hmemo).bind fun answer later hlater _ hanswer =>
      yields_pure hlater ⟨fun f kept hkept => ?_, hanswer.2⟩
    rw [Std.HashMap.getElem?_insert] at hkept
    split at hkept
    · exact Option.some.inj hkept ▸ hanswer.2
    · exact hanswer.1 f kept hkept

/-- At first no results are kept. -/
theorem KeepsMemo.run' {op : MemoM Edge} (h : KeepsMemo P op store) :
    Keeps P (op.run' ∅) store := by
  change PlanningGame.Yields _ (Prod.fst <$> op.run ∅) store _
  rw [← bind_pure_comp]
  exact (h ∅ fun e result hmemo => by simp at hmemo).bind
    fun _ _ hlater _ hpost => yields_pure hlater hpost.2

end Memos

end Diagram

end PlanningGame
