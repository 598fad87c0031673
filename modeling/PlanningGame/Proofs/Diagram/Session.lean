import Mathlib
import PlanningGame.Proofs.Diagram.Cube
import PlanningGame.Proofs.Diagram.Quantifier

/-!
# Sessions

A session starts with a new store and the two constants and performs one operation after the other
on edges it was given earlier. All stores met on the way are sound. So a session keeps the rules of
reduced diagrams, never changes the function of an edge, and answers with the same edge exactly when
it is asked for the same function.
-/
namespace PlanningGame

open Diagram

/-- An operation with its operands. -/
inductive Request
  | negation (f : Edge)
  | literal (v : Var)
  | branch (v : Var) (low high : Edge)
  | cube (literals : List Int)
  | ite (f g h : Edge)
  | conj (f g : Edge)
  | disj (f g : Edge)
  | differ (f g : Edge)
  | agree (f g : Edge)
  | imply (f g : Edge)
  | entails (f g : Edge)
  | conjAll (edges : List Edge)
  | disjAll (edges : List Edge)
  | restrict (f : Edge) (v : Var) (value : Bool)
  | compose (f : Edge) (v : Var) (g : Edge)
  | substitute (f : Edge) (images : Substitution)
  | someOn (f : Edge) (vars : List Var)
  | allOn (f : Edge) (vars : List Var)

namespace Request

/-- Perform the operation. A test answers with a constant. -/
def run : Request → DiagramM Edge
  | .negation f => return -f
  | .literal v => Diagram.literal v
  | .branch v low high => Diagram.branch v low high
  | .cube literals => Diagram.cube literals
  | .ite f g h => Diagram.ite f g h
  | .conj f g => Diagram.conj f g
  | .disj f g => Diagram.disj f g
  | .differ f g => Diagram.differ f g
  | .agree f g => Diagram.agree f g
  | .imply f g => Diagram.imply f g
  | .entails f g => return if ← Diagram.entails f g then .one else .zero
  | .conjAll edges => Diagram.conjAll edges
  | .disjAll edges => Diagram.disjAll edges
  | .restrict f v value => Diagram.restrict f v value
  | .compose f v g => Diagram.compose f v g
  | .substitute f images => Diagram.substitute f images
  | .someOn f vars => Diagram.quantifyExists f vars
  | .allOn f vars => Diagram.quantifyForall f vars

/-- The edges that the operation is applied to. -/
def Uses : Request → Edge → Prop
  | .literal _, _ | .cube _, _ => False
  | .negation f, e | .restrict f _ _, e | .someOn f _, e | .allOn f _, e => e = f
  | .branch _ f g, e | .conj f g, e | .disj f g, e | .differ f g, e | .agree f g, e
  | .imply f g, e | .entails f g, e | .compose f _ g, e => e = f ∨ e = g
  | .ite f g h, e => e = f ∨ e = g ∨ e = h
  | .conjAll edges, e | .disjAll edges, e => e ∈ edges
  | .substitute f images, e => e = f ∨ ∃ v : Var, images[v]? = some e

/-- New variables are not zero, a branch is taken above the variables of its two parts, and the
literals of a cube are over different variables. -/
def Allowed (store : Store) : Request → Prop
  | .literal v => v ≠ 0
  | .branch v low high => v ≠ 0 ∧ store.Below v low ∧ store.Below v high
  | .cube literals => Literals literals
  | _ => True

/-- The operation fixes or replaces variable zero, which it refuses. -/
def FixesZero : Request → Prop
  | .restrict _ v _ | .compose _ v _ => v = 0
  | _ => False

/-- The valuations that an answer should stand for. -/
def meaning (store : Store) : Request → Valuation → Prop
  | .negation f, a => ¬ store.eval f a = true
  | .literal v, a => a v = true
  | .branch v low high, a => if a v then store.eval high a = true else store.eval low a = true
  | .cube literals, a => ∀ l ∈ literals, a.Meets l
  | .ite f g h, a =>
    (store.eval f a = true → store.eval g a = true) ∧
      (¬ store.eval f a = true → store.eval h a = true)
  | .conj f g, a => store.eval f a = true ∧ store.eval g a = true
  | .disj f g, a => store.eval f a = true ∨ store.eval g a = true
  | .differ f g, a => ¬ (store.eval f a = true ↔ store.eval g a = true)
  | .agree f g, a => store.eval f a = true ↔ store.eval g a = true
  | .imply f g, a => store.eval f a = true → store.eval g a = true
  | .entails f g, _ => ∀ b, store.eval f b = true → store.eval g b = true
  | .conjAll edges, a => ∀ g ∈ edges, store.eval g a = true
  | .disjAll edges, a => ∃ g ∈ edges, store.eval g a = true
  | .restrict f v value, a => store.eval f (a.update v value) = true
  | .compose f v g, a => store.eval f (a.update v (store.eval g a)) = true
  | .substitute f images, a => store.eval f (replaced store images a) = true
  | .someOn f vars, a => ∃ b, a.VariesOn vars b ∧ store.eval f b = true
  | .allOn f vars, a => ∀ b, a.VariesOn vars b → store.eval f b = true

variable {store : Store}

/-- The test whether one function implies another finds out, because the only diagram of an
implication that always holds is the constant. -/
theorem ensures_entails (hs : store.Sound) {f g : Edge} {P Q : Valuation → Prop}
    (hf : store.Denotes f P) (hg : store.Denotes g Q) :
    Ensures (Diagram.entails f g) store fun answer _ => answer = true ↔ ∀ a, P a → Q a := by
  unfold Diagram.entails
  refine (ensures_imply hs hf hg).bind fun e later hs' _ he => ensures_pure hs' ?_
  simp only [decide_eq_true_eq]
  refine ⟨?_, fun h => he.eq_of_iff hs'.founded.denotes_one hs'.toReduced fun a =>
    iff_true_intro (h a)⟩
  rintro rfl
  exact fun a => (he.eval_iff a).1 (by simp)

/-- Every allowed operation on edges of a sound store keeps it sound and answers with the edge that
stands for its meaning. -/
theorem ensures_run (hs : store.Sound) (r : Request) (hallowed : r.Allowed store)
    (huses : ∀ e, r.Uses e → store.Has e) (hzero : ¬ r.FixesZero) :
    Ensures r.run store fun e later => later.Denotes e (r.meaning store) := by
  cases r with
  | negation f => exact ensures_pure hs ((huses f rfl).denotes.neg hs.toReduced)
  | literal v => exact ensures_literal hs hallowed
  | branch v low high =>
    obtain ⟨hv, hlow, hhigh⟩ := hallowed
    exact ensures_branch hs hv (huses low (.inl rfl)).denotes (huses high (.inr rfl)).denotes
      fun _ => ⟨hlow, hhigh⟩
  | cube literals =>
    exact (ensures_cube hs (fun l hl => hallowed.var_ne_zero hl) fun _ => hallowed).weaken
      fun _ _ _ _ he => he.1
  | ite f g h =>
    exact ensures_ite hs (huses f (.inl rfl)).denotes (huses g (.inr (.inl rfl))).denotes
      (huses h (.inr (.inr rfl))).denotes
  | conj f g => exact ensures_conj hs (huses f (.inl rfl)).denotes (huses g (.inr rfl)).denotes
  | disj f g => exact ensures_disj hs (huses f (.inl rfl)).denotes (huses g (.inr rfl)).denotes
  | differ f g => exact ensures_differ hs (huses f (.inl rfl)).denotes (huses g (.inr rfl)).denotes
  | agree f g => exact ensures_agree hs (huses f (.inl rfl)).denotes (huses g (.inr rfl)).denotes
  | imply f g => exact ensures_imply hs (huses f (.inl rfl)).denotes (huses g (.inr rfl)).denotes
  | entails f g =>
    refine (ensures_entails hs (huses f (.inl rfl)).denotes (huses g (.inr rfl)).denotes).bind
      fun answer later hs' _ hanswer => ensures_pure hs' ?_
    split
    · next h => exact hs'.founded.denotes_one.congr fun _ => (iff_true_intro (hanswer.1 h)).symm
    · next h =>
      exact hs'.founded.denotes_zero.congr fun _ => (iff_false_intro (mt hanswer.2 h)).symm
  | conjAll edges => exact ensures_conjAll hs huses
  | disjAll edges => exact ensures_disjAll hs huses
  | restrict f v value => exact ensures_restrict hs hzero (huses f rfl)
  | compose f v g => exact ensures_compose hs hzero (huses f (.inl rfl)) (huses g (.inr rfl))
  | substitute f images =>
    exact ensures_substitute hs (fun v image hv => huses image (.inr ⟨v, hv⟩)) (huses f (.inl rfl))
  | someOn f vars => exact ensures_quantifyExists hs (huses f rfl).denotes vars
  | allOn f vars => exact ensures_quantifyForall hs (huses f rfl).denotes vars

/-- Fixing variable zero fails at once and leaves all nodes and computed results alone. -/
theorem run_of_fixesZero {r : Request} (hs : store.Sound) (huses : ∀ e, r.Uses e → store.Has e)
    (hzero : r.FixesZero) :
    ∃ later : Store, r.run.run.run store = (.error (.breach .zeroVariable), later) ∧
      later.Sound ∧ store ≤ later := by
  cases r with
  | restrict f v value =>
    obtain rfl : v = 0 := hzero
    exact ⟨store, run_restrict_zero (huses f rfl) value, hs, le_rfl⟩
  | compose f v g =>
    obtain rfl : v = 0 := hzero
    obtain ⟨message, hrun⟩ : ∃ message, (Diagram.compose f 0 g).run.run store =
        ((Diagram.restrict f 0 true >>= fun whenTrue => Diagram.restrict f 0 false >>=
          fun whenFalse => Diagram.ite g whenTrue whenFalse) : DiagramM Edge).run.run
            (store.note .debug message) := ⟨_, rfl⟩
    have hle := store.le_note .debug message
    refine ⟨store.note .debug message, ?_, Store.sound_note hs .debug message, hle⟩
    rw [run, hrun]
    exact run_bind_of_error (run_restrict_zero ((huses f (.inl rfl)).mono hle) true) _
  | _ => exact hzero.elim

end Request

/-- A store and the edges given so far. -/
structure Session where
  store : Store
  answers : List Edge

namespace Session

/-- A session knows the constants at its start. -/
def start (store : Store) : Session :=
  ⟨store, [.one, .zero]⟩

/-- The operation is allowed, and is applied to edges given earlier. -/
def Admits (s : Session) (r : Request) : Prop :=
  r.Allowed s.store ∧ ∀ e, r.Uses e → e ∈ s.answers

/-- The session after an operation. One that fails gives no answer. -/
def perform (s : Session) (r : Request) : Session :=
  match r.run.run.run s.store with
  | (.ok answer, store) => ⟨store, s.answers ++ [answer]⟩
  | (.error _, store) => ⟨store, s.answers⟩

/-- The second session is reached from the first by admitted operations. -/
inductive Leads : Session → Session → Prop
  | refl (s : Session) : Leads s s
  | step {s t : Session} {r : Request} (h : Leads s t) (hr : t.Admits r) : Leads s (t.perform r)

/-- The store is sound and has all edges given so far. -/
structure Valid (s : Session) : Prop where
  sound : s.store.Sound
  has : ∀ e ∈ s.answers, s.store.Has e

/-- What one session keeps of another. -/
structure Extends (s t : Session) : Prop where
  store_le : s.store ≤ t.store
  answers_sub : s.answers ⊆ t.answers

variable {s t : Session} {r : Request}

/-- An admitted operation has the answer it should have while there is room for it. -/
theorem Valid.perform_answers (h : s.Valid) (hr : s.Admits r) (hzero : ¬ r.FixesZero)
    (hroom : (s.perform r).store.nodeCount < Edge.positions) :
    ∃ e, (s.perform r).answers = s.answers ++ [e] ∧
      (s.perform r).store.Denotes e (r.meaning s.store) := by
  have key := Request.ensures_run h.sound r hr.1 (fun e he => h.has e (hr.2 e he)) hzero
  have hstore : (s.perform r).store = (r.run.run.run s.store).2 := by
    unfold perform
    split <;> simp_all
  obtain ⟨e, later, hrun, he⟩ := key.exists_run (hstore ▸ hroom)
  exact ⟨e, by simp [perform, hrun], by simpa [perform, hrun] using he⟩

theorem Valid.perform (h : s.Valid) (hr : s.Admits r) :
    (s.perform r).Valid ∧ s.Extends (s.perform r) := by
  have huses : ∀ e, r.Uses e → s.store.Has e := fun e he => h.has e (hr.2 e he)
  by_cases hzero : r.FixesZero
  · obtain ⟨later, hrun, hsound, hle⟩ := Request.run_of_fixesZero h.sound huses hzero
    have hperform : s.perform r = ⟨later, s.answers⟩ := by simp [Session.perform, hrun]
    rw [hperform]
    exact ⟨⟨hsound, fun e he => (h.has e he).mono hle⟩, hle, fun _ he => he⟩
  · obtain ⟨hsound, hle, hmeets⟩ := Request.ensures_run h.sound r hr.1 huses hzero
    unfold Session.perform
    generalize r.run.run.run s.store = outcome at hsound hle hmeets
    obtain ⟨failure | answer, later⟩ := outcome
    · exact ⟨⟨hsound, fun e he => (h.has e he).mono hle⟩, hle, fun _ he => he⟩
    · refine ⟨⟨hsound, fun e he => ?_⟩, hle, List.subset_append_left _ _⟩
      obtain he | he := List.mem_append.1 he
      · exact (h.has e he).mono hle
      · obtain rfl := List.mem_singleton.1 he
        exact hmeets.has

theorem Leads.valid (hst : s.Leads t) (h : s.Valid) : t.Valid ∧ s.Extends t := by
  induction hst with
  | refl => exact ⟨h, le_rfl, fun _ he => he⟩
  | step _ hr ih =>
    obtain ⟨hvalid, hext⟩ := ih
    obtain ⟨hvalid', hext'⟩ := hvalid.perform hr
    exact ⟨hvalid', hext.store_le.trans hext'.store_le,
      List.Subset.trans hext.answers_sub hext'.answers_sub⟩

end Session

/-- A new store holds the terminal only and no computed result. -/
theorem Store.of_create {sizes : TableSizes} {journal : Journal} {store : Store}
    (h : Store.create sizes journal = .ok store) :
    store.nodes.values = #[.terminal] ∧ 0 < store.nodes.buckets.size ∧
      ∀ (i : Nat) (entry : Triple × Edge), store.computed.slots[i]? ≠ some (some entry) := by
  unfold Store.create at h
  split at h
  case h_2 => exact absurd h (by simp)
  next nodes computed hnodes hcomputed =>
    obtain rfl := Except.ok.inj h
    unfold UniqueTable.ofBits? at hnodes
    unfold ComputedTable.ofBits? at hcomputed
    split at hnodes
    case isFalse => exact absurd hnodes (by simp)
    split at hcomputed
    case isFalse => exact absurd hcomputed (by simp)
    obtain rfl := Option.some.inj hnodes
    obtain rfl := Option.some.inj hcomputed
    refine ⟨rfl, by simp [UniqueTable.add, Binary.codes], fun i entry => ?_⟩
    rw [Array.getElem?_replicate]
    split <;> simp

theorem Store.sound_of_create {sizes : TableSizes} {journal : Journal} {store : Store}
    (h : Store.create sizes journal = .ok store) : store.Sound := by
  obtain ⟨hvalues, hbuckets, hempty⟩ := Store.of_create h
  have hnode : ∀ i node, store.node? i = some node → i = 1 ∧ node = .terminal := by
    intro i node hi
    obtain ⟨hpos, hget⟩ := UniqueTable.value?_eq_some_iff.1 hi
    rw [hvalues] at hget
    obtain ⟨hlt, hval⟩ := Array.getElem?_eq_some_iff.1 hget
    have : i - 1 = 0 := by simpa using hlt
    have hone : i = 1 := by omega
    subst hone
    exact ⟨rfl, hval.symm⟩
  refine ⟨⟨?_, fun i node hi hn => ?_, fun i j node hi hj => ?_⟩,
    ⟨hbuckets, fun i node hi hne => ?_⟩, fun i triple e hi => absurd hi (hempty i _)⟩
  · exact UniqueTable.value?_eq_some_iff.2 ⟨one_pos, by rw [hvalues]; rfl⟩
  · have := (hnode i node hn).1
    omega
  · rw [(hnode i node hi).1, (hnode j node hj).1]
  · exact absurd (hnode i node hi).2 hne

namespace Session

theorem valid_start {sizes : TableSizes} {journal : Journal} {store : Store}
    (h : Store.create sizes journal = .ok store) : (start store).Valid := by
  have hs := Store.sound_of_create h
  refine ⟨hs, fun e he => ?_⟩
  obtain rfl | he := List.mem_cons.1 he
  · exact hs.has_one
  · obtain rfl := List.mem_singleton.1 he
    exact hs.has_zero

/-- Whatever a session does after its start, its store is reduced, an edge given at any time keeps
its function at all later times, two edges are equal exactly when they have the same function, and
the next admitted operation is answered while there is room. -/
theorem canonicity {sizes : TableSizes} {journal : Journal} {store : Store}
    {earlier later : Session} (hcreate : Store.create sizes journal = .ok store)
    (hfirst : (start store).Leads earlier) (hlast : earlier.Leads later) :
    later.store.Reduced ∧
      (∀ e ∈ earlier.answers,
        e ∈ later.answers ∧ ∀ a, later.store.eval e a = earlier.store.eval e a) ∧
      (∀ e ∈ later.answers, ∀ f ∈ later.answers,
        e = f ↔ ∀ a, later.store.eval e a = later.store.eval f a) ∧
      ∀ r, later.Admits r → ¬ r.FixesZero →
        (later.perform r).store.nodeCount < Edge.positions →
        ∃ e, (later.perform r).answers = later.answers ++ [e] ∧
          (later.perform r).store.Denotes e (r.meaning later.store) := by
  obtain ⟨hearlier, -⟩ := hfirst.valid (valid_start hcreate)
  obtain ⟨hlater, hext⟩ := hlast.valid hearlier
  refine ⟨hlater.sound.toReduced, fun e he => ⟨hext.answers_sub he, ?_⟩, fun e he f hf => ?_,
    fun r hr hzero hroom => hlater.perform_answers hr hzero hroom⟩
  · exact hearlier.sound.eval_mono hext.store_le (hearlier.has e he)
  · refine ⟨fun h a => by rw [h], fun h => ?_⟩
    exact hlater.sound.eq_of_eval_eq (hlater.has e he) (hlater.has f hf) h

/-- The conjunction of two variables, and then the disjunction of their negations, which is the
negation of that conjunction. -/
theorem canonicity_of_conj_of_disj :
    ∃ store : Store, Store.create ⟨1, 1⟩ {} = .ok store ∧
      let x : Edge := ⟨2, false, by decide⟩
      let y : Edge := ⟨3, false, by decide⟩
      let earlier := (((start store).perform (.literal 1)).perform (.literal 2)).perform (.conj x y)
      let later := ((earlier.perform (.negation x)).perform (.negation y)).perform (.disj (-x) (-y))
      (start store).Leads earlier ∧ earlier.Leads later ∧
        later.answers = [.one, .zero, x, y, ⟨4, false, by decide⟩, -x, -y, ⟨4, true, by decide⟩] ∧
        later.store.Reduced ∧
        (∀ e ∈ earlier.answers,
          e ∈ later.answers ∧ ∀ a, later.store.eval e a = earlier.store.eval e a) ∧
        ∀ e ∈ later.answers, ∀ f ∈ later.answers,
          e = f ↔ ∀ a, later.store.eval e a = later.store.eval f a := by
  let store : Store := ⟨⟨#[.terminal], #[[], []]⟩, { slots := #[none, none] }, {}⟩
  have hcreate : Store.create ⟨1, 1⟩ {} = .ok store := rfl
  refine ⟨store, hcreate, ?_⟩
  intro x y earlier later
  have hfirst : (start store).Leads earlier := by
    have hone : (1 : Var) ≠ 0 := by decide
    have htwo : (2 : Var) ≠ 0 := by decide
    refine .step (.step (.step (.refl _) ⟨hone, by simp [Request.Uses]⟩)
      ⟨htwo, by simp [Request.Uses]⟩) ⟨trivial, ?_⟩
    rintro e (rfl | rfl) <;> decide +kernel
  have hlast : earlier.Leads later := by
    refine .step (.step (.step (.refl _) ⟨trivial, ?_⟩) ⟨trivial, ?_⟩) ⟨trivial, ?_⟩
    · rintro e rfl
      decide +kernel
    · rintro e rfl
      decide +kernel
    · rintro e (rfl | rfl) <;> decide +kernel
  obtain ⟨hreduced, hkept, heq, -⟩ := canonicity hcreate hfirst hlast
  exact ⟨hfirst, hlast, by decide +kernel, hreduced, hkept, heq⟩

end Session

end PlanningGame
