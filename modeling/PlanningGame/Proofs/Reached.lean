import Mathlib
import PlanningGame.Proofs.Diagram.Conjunction
import PlanningGame.Proofs.Encoding.Calls

/-!
# Diagrams in reached managers

In a manager that was reached by any calls, the operations on diagrams do what they say, whatever
nodes and kept results these calls left behind, and also where they put variables out of order. Only
quantification asks for more: the diagram that it is applied to has to be ordered. Cubes are
conjunctions of their literals as functions, and as edges as long as no variable occurs twice.
-/
namespace PlanningGame.Manager

open Diagram

variable {sizes : TableSizes} {journal : Journal} {origin m n : Manager}

/-- A reached manager has all nodes of its computed results. -/
theorem Leads.replayable (hreach : origin.Leads m) (hcreate : create sizes journal = .ok origin) :
    m.store.Replayable :=
  (hreach.keeps (paired_of_create hcreate).1).1.store.left

theorem Leads.run {call : Call} (hreach : origin.Leads m) (hcall : call.Belongs m.store)
    (hrun : call.run.run.run m = (.ok (), n)) : origin.Leads n := by
  have hstep := Leads.step hreach hcall (by simp [hrun])
  rwa [hrun] at hstep

section Ite

/-- If-then-else is answered unless positions run out, and under every valuation its answer has the
value of the branch that the condition selects. So has every result that is kept. -/
theorem ite_exact (hcreate : create sizes journal = .ok origin) (hreach : origin.Leads m)
    {f g h : Edge} (hf : m.store.Has f) (hg : m.store.Has g) (hh : m.store.Has h) :
    EnsuresIn Store.Regular (ite f g h) m.store (fun e later => later.Has e ∧ ∀ a,
        later.eval e a = if m.store.eval f a then m.store.eval g a else m.store.eval h a) ∧
      ∀ (i : Nat) (triple : Triple) (e : Edge),
        m.store.computed.slots[i]? = some (some (triple, e)) → m.store.Has e ∧ ∀ a,
          m.store.eval e a = if m.store.eval triple.condition a then m.store.eval triple.positive a
            else m.store.eval triple.negative a := by
  have hs := (hreach.replayable hcreate).regular
  refine ⟨(ensures_ite hs hf.denotes hg.denotes hh.denotes).weaken fun e later _ _ he =>
    ⟨he.has, fun a => ?_⟩, fun i triple e hi => ?_⟩
  · have hvalue := he.eval_iff a
    rw [Bool.eq_iff_iff, hvalue]
    split <;> simp_all
  · have hkept := hs.computed i triple e hi
    exact ⟨hkept.result, hkept.eval_eq⟩

/-- The greatest variable stands on the level of the constants. With the smallest tables, after its
conjunction with another variable was kept, it is the condition of an if-then-else. -/
theorem ite_exact_of_greatest_var :
    ∃ (origin m : Manager) (f g e : Edge) (later : Store),
      create ⟨0, 0⟩ {} = .ok origin ∧ origin.Leads m ∧ m.store.Has f ∧ m.store.Has g ∧
      f.index ≠ 1 ∧ m.store.level f = Store.lastLevel ∧
      (∃ (triple : Triple) (kept : Edge), m.store.computed.slots[0]? = some (some (triple, kept)) ∧
        ∀ a, m.store.eval kept a = if m.store.eval triple.condition a
          then m.store.eval triple.positive a else m.store.eval triple.negative a) ∧
      (ite f (-g) g).run.run m.store = (.ok e, later) ∧
      ∀ a, later.eval e a = if m.store.eval f a then m.store.eval (-g) a else m.store.eval g a := by
  let origin : Manager := { store := ⟨⟨#[.terminal], #[[]]⟩, { slots := #[none] }, {}⟩ }
  let f : Edge := ⟨2, false, by decide⟩
  let g : Edge := ⟨3, false, by decide⟩
  have hcreate : create ⟨0, 0⟩ {} = .ok origin := rfl
  have hok : answersWith (Call.diagram (.literal 0xFFFFFFFF)).run origin (fun _ m₁ =>
      answersWith (Call.diagram (.literal 1)).run m₁ fun _ m₂ =>
        decide (3 ≤ m₂.store.nodeCount) && answersWith (Call.diagram (.conj f g)).run m₂ fun _ m =>
          decide (3 ≤ m.store.nodeCount ∧ m.store.level f = Store.lastLevel ∧
            m.store.computed.slots[0]?.join.isSome = true) &&
          answersWith (ite f (-g) g) m.store fun _ _ => true) = true := by
    decide +kernel
  obtain ⟨_, m₁, hrun₁, hok⟩ := exists_run_of_answersWith hok
  obtain ⟨_, m₂, hrun₂, hok⟩ := exists_run_of_answersWith hok
  rw [Bool.and_eq_true, decide_eq_true_eq] at hok
  obtain ⟨hcount₂, hok⟩ := hok
  obtain ⟨_, m, hrun, hok⟩ := exists_run_of_answersWith hok
  rw [Bool.and_eq_true, decide_eq_true_eq] at hok
  obtain ⟨⟨hcount, hlevel, hkept⟩, hok⟩ := hok
  obtain ⟨e, later, hite, -⟩ := exists_run_of_answersWith hok
  have hreach : origin.Leads m := by
    refine (((Leads.refl origin).run ?_ hrun₁).run ?_ hrun₂).run ?_ hrun
    · exact fun _ huses => False.elim huses
    · exact fun _ huses => False.elim huses
    · rintro _ (rfl | rfl)
      · exact ⟨by decide, by change 2 ≤ _; omega⟩
      · exact ⟨by decide, hcount₂⟩
  have hf : m.store.Has f := ⟨by decide, by change 2 ≤ _; omega⟩
  have hg : m.store.Has g := ⟨by decide, hcount⟩
  obtain ⟨hanswers, htable⟩ := ite_exact hcreate hreach hf (Store.has_neg.2 hg) hg
  obtain ⟨-, -, -, hvalue⟩ := hanswers.of_run hite
  obtain ⟨⟨triple, kept⟩, hslot⟩ := Option.isSome_iff_exists.1 hkept
  have hslot : m.store.computed.slots[0]? = some (some (triple, kept)) :=
    Option.join_eq_some_iff.1 hslot
  exact ⟨origin, m, f, g, e, later, hcreate, hreach, hf, hg, by decide, hlevel,
    ⟨triple, kept, hslot, (htable 0 triple kept hslot).2⟩, hite, hvalue⟩

end Ite

section Cubes

/-- A cube and the conjunction of its literals are answered unless positions run out. They have one
function and are one edge exactly if no variable occurs twice. A cube is never the constant
false. -/
theorem cube_eq_conjLiterals_iff (hcreate : create sizes journal = .ok origin)
    (hreach : origin.Leads m) {literals : List Int}
    (hl : ∀ l ∈ literals, l ≠ 0 ∧ l.natAbs < UInt32.size) :
    Answers Store.Replayable (do return (← cube literals, ← conjLiterals literals)) m.store
      fun pair later =>
        later.Denotes pair.1 (fun a => ∀ l ∈ literals, a.Meets l) ∧
        later.Denotes pair.2 (fun a => ∀ l ∈ literals, a.Meets l) ∧
        pair.1 ≠ .zero ∧ (pair.1 = pair.2 ↔ (literals.map Int.natAbs).Nodup) :=
  answers_cube_conjLiterals (hreach.replayable hcreate) hl

/-- A literal that is listed twice is tested twice by the cube. -/
theorem cube_ne_conjLiterals_of_repeated :
    ∃ (origin : Manager) (pair : Edge × Edge) (later : Store), create ⟨1, 1⟩ {} = .ok origin ∧
      origin.Leads origin ∧ (∀ l ∈ [2, -1, 2], l ≠ 0 ∧ l.natAbs < UInt32.size) ∧
      (do return (← cube [2, -1, 2], ← conjLiterals [2, -1, 2]) : DiagramM (Edge × Edge)).run.run
        origin.store = (.ok pair, later) ∧
      (∀ a, later.eval pair.1 a = later.eval pair.2 a) ∧ pair.1 ≠ pair.2 := by
  let origin : Manager := { store := .blank }
  have hcreate : create ⟨1, 1⟩ {} = .ok origin := rfl
  have hl : ∀ l ∈ [2, -1, 2], l ≠ 0 ∧ l.natAbs < UInt32.size := by decide
  have hok : answersWith (do return (← cube [2, -1, 2], ← conjLiterals [2, -1, 2])) origin.store
      (fun _ _ => true) = true := by cbv
  obtain ⟨pair, later, hrun, -⟩ := exists_run_of_answersWith hok
  obtain ⟨-, -, hcube, hconj, -, hiff⟩ :=
    (cube_eq_conjLiterals_iff hcreate (.refl origin) hl).yields pair later hrun
  exact ⟨origin, pair, later, hcreate, .refl origin, hl, hrun,
    fun a => Bool.eq_iff_iff.2 ((hcube.eval_iff a).trans (hconj.eval_iff a).symm),
    mt hiff.1 (by decide)⟩

/-- The cube of two opposite literals is never true, like their conjunction, which is the constant
false, but it is another edge. -/
theorem exists_cube_of_opposite_literals :
    ∃ (origin : Manager) (pair : Edge × Edge) (later : Store), create ⟨1, 1⟩ {} = .ok origin ∧
      (do return (← cube [1, -1], ← conjLiterals [1, -1]) : DiagramM (Edge × Edge)).run.run
        origin.store = (.ok pair, later) ∧
      pair.2 = .zero ∧ pair.1 ≠ .zero := by
  let origin : Manager := { store := .blank }
  have hok : answersWith (do return (← cube [1, -1], ← conjLiterals [1, -1])) origin.store
      (fun pair _ => decide (pair.2 = .zero ∧ pair.1 ≠ .zero)) = true := by cbv
  obtain ⟨pair, later, hrun, hpair⟩ := exists_run_of_answersWith hok
  exact ⟨origin, pair, later, rfl, hrun, of_decide_eq_true hpair⟩

end Cubes

section Quantification

/-- At any later time the operation gives the same edge again. -/
def Settled (origin : Manager) (store : Store) (op : DiagramM Edge) (e : Edge) : Prop :=
  ∀ n, origin.Leads n → store ≤ n.store →
    Answers Store.Replayable op n.store fun again _ => again = e

/-- The edge of an ordered diagram is known from its function. -/
theorem settled_of_depicts (hcreate : create sizes journal = .ok origin) {store : Store}
    {op : DiagramM Edge} {e : Edge} {P : Valuation → Prop} (hs : store.Founded)
    (he : store.Depicts e P)
    (h : ∀ now, now.Replayable → store ≤ now → Answers Store.Replayable op now fun again later =>
      later.Depicts again P) : Settled origin store op e := by
  intro n hreach hle
  refine (h n.store (hreach.replayable hcreate) hle).weaken fun again later hlater hle' hagain => ?_
  exact hagain.eq (he.mono hs (hle.trans hle')) hlater

theorem settled_of_frees (hcreate : create sizes journal = .ok origin) {store : Store}
    {op : DiagramM Edge} {e : Edge} {P : Valuation → Prop} {vars vars' : List Var}
    (hs : store.Founded) (he : Frees store vars e P)
    (h : ∀ now, now.Replayable → store ≤ now → Answers Store.Replayable op now fun again later =>
      Frees later vars' again P) : Settled origin store op e :=
  settled_of_depicts hcreate hs he.depicts fun now hnow hle =>
    (h now hnow hle).weaken fun _ _ _ _ hagain => hagain.depicts

end Quantification

end PlanningGame.Manager
