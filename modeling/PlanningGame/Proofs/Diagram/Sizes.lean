import Mathlib
import PlanningGame.Proofs.Diagram.Session
import PlanningGame.Proofs.Diagram.Twins

/-!
# Sizes of the tables

How many buckets and places the tables of a store have decides how fast an operation is, and
nothing else. Two sessions that start with tables of any sizes and perform the same operations, on
edges given before and in any order of the variables, are answered alike at every step and end with
the same nodes at the same positions. All stores met on the way are regular.
-/
namespace PlanningGame

open Diagram

namespace Request

/-- Every operation on edges that are there ends alike on alike stores. -/
theorem mirrors_run {s t : Store} (h : s.Alike t) (r : Request) (huses : ∀ e, r.Uses e → s.Has e) :
    Mirrors r.run r.run s t fun e later => later.Has e := by
  cases r with
  | negation f => exact mirrors_pure h (Store.has_neg.2 (huses f rfl))
  | literal v => exact mirrors_literal h
  | branch v low high =>
    exact (mirrors_branch h (huses low (.inl rfl)) (huses high (.inr rfl))).weaken
      fun _ _ _ _ _ he => he.1
  | cube literals => exact mirrors_cube h literals
  | ite f g k =>
    exact mirrors_ite h (huses f (.inl rfl)) (huses g (.inr (.inl rfl))) (huses k (.inr (.inr rfl)))
  | conj f g => exact mirrors_conj h (huses f (.inl rfl)) (huses g (.inr rfl))
  | disj f g => exact mirrors_disj h (huses f (.inl rfl)) (huses g (.inr rfl))
  | differ f g =>
    exact mirrors_ite h (huses f (.inl rfl)) (Store.has_neg.2 (huses g (.inr rfl)))
      (huses g (.inr rfl))
  | agree f g =>
    exact mirrors_ite h (huses f (.inl rfl)) (huses g (.inr rfl))
      (Store.has_neg.2 (huses g (.inr rfl)))
  | imply f g => exact mirrors_imply h (huses f (.inl rfl)) (huses g (.inr rfl))
  | entails f g =>
    have hentails : Mirrors (Diagram.entails f g) (Diagram.entails f g) s t fun _ _ => True := by
      unfold Diagram.entails
      exact (mirrors_imply h (huses f (.inl rfl)) (huses g (.inr rfl))).bind
        fun _ _ _ h' _ _ => mirrors_pure h' trivial
    refine hentails.bind fun answer s' t' h' _ _ => mirrors_pure h' ?_
    split
    · exact h'.left.toFounded.has_one
    · exact h'.left.toFounded.has_zero
  | conjAll edges => exact mirrors_conjFrom h h.left.toFounded.has_one huses
  | disjAll edges => exact mirrors_disjFrom h h.left.toFounded.has_zero huses
  | restrict f v value => exact mirrors_restrict h (huses f rfl)
  | compose f v g => exact mirrors_compose h (huses f (.inl rfl)) (huses g (.inr rfl))
  | substitute f images =>
    exact mirrors_substitute h (fun v image hv => huses image (.inr ⟨v, hv⟩)) (huses f (.inl rfl))
  | someOn f vars => exact mirrors_quantifyExists h (huses f rfl) vars
  | allOn f vars => exact mirrors_quantifyForall h (huses f rfl) vars

end Request

/-- A new store has no computed result that could be missing. -/
theorem Store.replayable_of_create {sizes : TableSizes} {journal : Journal} {store : Store}
    (h : Store.create sizes journal = .ok store) : store.Replayable :=
  have hs := Store.sound_of_create h
  ⟨hs.founded, hs.indexed, fun i _ _ hi => absurd hi ((Store.of_create h).2.2 i _)⟩

namespace Session

variable {s t : Session} {r : Request}

/-- What an operation answers, or why it fails. -/
def outcome (s : Session) (r : Request) : Except Failure Edge :=
  (r.run.run.run s.store).1

/-- The outcomes of some operations, one after the other, and the session at their end. -/
def performAll (s : Session) : List Request → List (Except Failure Edge) × Session
  | [] => ([], s)
  | r :: rest =>
    let (outcomes, last) := (s.perform r).performAll rest
    (s.outcome r :: outcomes, last)

/-- Every operation is applied to edges that were given before it. -/
def Grants (s : Session) : List Request → Prop
  | [] => True
  | r :: rest => (∀ e, r.Uses e → e ∈ s.answers) ∧ (s.perform r).Grants rest

/-- The sessions have the same nodes at the same positions, and the same edges were given. -/
structure Alike (s t : Session) : Prop where
  store : s.store.Alike t.store
  answers_eq : t.answers = s.answers
  has : ∀ e ∈ s.answers, s.store.Has e

theorem Alike.perform (h : Alike s t) (hr : ∀ e, r.Uses e → e ∈ s.answers) :
    t.outcome r = s.outcome r ∧ Alike (s.perform r) (t.perform r) := by
  have hrun := r.mirrors_run h.store fun e he => h.has e (hr e he)
  unfold Mirrors at hrun
  unfold outcome Session.perform
  rcases hleft : r.run.run.run s.store with ⟨outcome, s'⟩
  rcases hright : r.run.run.run t.store with ⟨outcome', t'⟩
  rw [hleft, hright] at hrun
  obtain ⟨heq, halike, hle, hhas⟩ := hrun
  dsimp only at heq halike hle hhas
  subst heq
  have hkept : ∀ e ∈ s.answers, s'.Has e := fun e he => (h.has e he).mono hle
  cases outcome' with
  | error failure => exact ⟨rfl, halike, h.answers_eq, hkept⟩
  | ok answer =>
    refine ⟨rfl, halike, by rw [h.answers_eq], fun e he => ?_⟩
    obtain he | he := List.mem_append.1 he
    · exact hkept e he
    · exact List.mem_singleton.1 he ▸ hhas answer rfl

theorem Alike.performAll {requests : List Request} (h : Alike s t) (hgrants : s.Grants requests) :
    (t.performAll requests).1 = (s.performAll requests).1 ∧
      Alike (s.performAll requests).2 (t.performAll requests).2 := by
  induction requests generalizing s t with
  | nil => exact ⟨rfl, h⟩
  | cons r rest ih =>
    obtain ⟨hr, hrest⟩ := hgrants
    obtain ⟨houtcome, hstep⟩ := h.perform hr
    obtain ⟨houtcomes, hlast⟩ := ih hstep hrest
    exact ⟨congrArg₂ _ houtcome houtcomes, hlast⟩

/-- New stores are alike, whatever their sizes. -/
theorem alike_start {sizes sizes' : TableSizes} {journal journal' : Journal} {store store' : Store}
    (h : Store.create sizes journal = .ok store) (h' : Store.create sizes' journal' = .ok store') :
    Alike (start store) (start store') :=
  ⟨⟨(Store.of_create h').1.trans (Store.of_create h).1.symm, Store.replayable_of_create h,
    Store.replayable_of_create h'⟩, rfl, (valid_start h).has⟩

/-- Variables may come in any order: all computed results stay there, so the store stays regular. -/
theorem replayable_performAll {sizes : TableSizes} {journal : Journal} {store : Store}
    (hcreate : Store.create sizes journal = .ok store) {requests : List Request}
    (hgrants : (start store).Grants requests) :
    ((start store).performAll requests).2.store.Replayable :=
  ((alike_start hcreate hcreate).performAll hgrants).2.store.left

theorem exists_create (sizes : TableSizes) (journal : Journal)
    (h : sizes.storageBits ≤ 31 ∧ sizes.cacheBits ≤ 31) :
    ∃ store, Store.create sizes journal = .ok store := by
  unfold Store.create UniqueTable.ofBits? ComputedTable.ofBits?
  rw [if_pos h.1, if_pos h.2]
  exact ⟨_, rfl⟩

/-- From new tables of any two sizes, the same operations have the same outcomes at every step, and
lead to the same number of nodes and to the same node at every position. -/
theorem performAll_eq_of_sizes {sizes sizes' : TableSizes} (journal journal' : Journal)
    (hsizes : sizes.storageBits ≤ 31 ∧ sizes.cacheBits ≤ 31)
    (hsizes' : sizes'.storageBits ≤ 31 ∧ sizes'.cacheBits ≤ 31) :
    ∃ store store', Store.create sizes journal = .ok store ∧
      Store.create sizes' journal' = .ok store' ∧
      ∀ requests, (start store).Grants requests →
        ((start store').performAll requests).1 = ((start store).performAll requests).1 ∧
        ((start store').performAll requests).2.answers =
          ((start store).performAll requests).2.answers ∧
        ((start store').performAll requests).2.store.nodeCount =
          ((start store).performAll requests).2.store.nodeCount ∧
        ∀ i, ((start store').performAll requests).2.store.node? i =
          ((start store).performAll requests).2.store.node? i := by
  obtain ⟨store, hcreate⟩ := exists_create sizes journal hsizes
  obtain ⟨store', hcreate'⟩ := exists_create sizes' journal' hsizes'
  refine ⟨store, store', hcreate, hcreate', fun requests hgrants => ?_⟩
  obtain ⟨houtcomes, hlast⟩ := (alike_start hcreate hcreate').performAll hgrants
  exact ⟨houtcomes, hlast.answers_eq, hlast.store.nodeCount_eq, congrFun hlast.store.node?_eq⟩

/-- A table with a single place has lost the conjunction of two variables when it is asked for the
second time, a larger one still knows it. One request takes a branch out of order, and one fails. -/
theorem performAll_eq_of_eviction :
    ∃ store store' : Store, Store.create ⟨0, 0⟩ {} = .ok store ∧
      Store.create ⟨3, 5⟩ {} = .ok store' ∧
      let x : Edge := ⟨2, false, by decide⟩
      let y : Edge := ⟨3, false, by decide⟩
      let both : Edge := ⟨4, false, by decide⟩
      let requests : List Request :=
        [.literal 1, .literal 2, .conj x y, .disj x y, .conj x y, .branch 2 y x,
          .restrict both 0 true, .disj both ⟨6, false, by decide⟩]
      (start store).Grants requests ∧
        ((start store).performAll requests).2.store.computed.hits = 0 ∧
        ((start store').performAll requests).2.store.computed.hits = 1 ∧
        ((start store').performAll requests).1 = ((start store).performAll requests).1 ∧
        ((start store').performAll requests).2.answers =
          [.one, .zero, x, y, both, ⟨5, false, by decide⟩, both, ⟨6, false, by decide⟩,
            ⟨8, false, by decide⟩] := by
  let small : TableSizes := ⟨0, 0⟩
  let large : TableSizes := ⟨3, 5⟩
  have hsmall : small.storageBits ≤ 31 ∧ small.cacheBits ≤ 31 := by decide
  have hlarge : large.storageBits ≤ 31 ∧ large.cacheBits ≤ 31 := by decide
  obtain ⟨store, store', hcreate, hcreate', hall⟩ := performAll_eq_of_sizes {} {} hsmall hlarge
  have hstore : store = ⟨⟨#[.terminal], #[[]]⟩, { slots := #[none] }, {}⟩ :=
    Except.ok.inj (hcreate.symm.trans rfl)
  have hstore' : store' = ⟨⟨#[.terminal], Array.replicate 8 []⟩,
      { slots := Array.replicate 32 none }, {}⟩ :=
    Except.ok.inj (hcreate'.symm.trans rfl)
  refine ⟨store, store', hcreate, hcreate', ?_⟩
  intro x y both requests
  have hgrants : (start store).Grants requests := by
    subst hstore
    refine ⟨by simp [Request.Uses], by simp [Request.Uses], ?_, ?_, ?_, ?_, ?_, ?_, trivial⟩
    all_goals simp only [Request.Uses, forall_eq_or_imp, forall_eq]
    all_goals decide +kernel
  obtain ⟨houtcomes, hanswers, -⟩ := hall requests hgrants
  subst hstore hstore'
  exact ⟨hgrants, by decide +kernel, by decide +kernel, houtcomes, by decide +kernel⟩

end Session

end PlanningGame
