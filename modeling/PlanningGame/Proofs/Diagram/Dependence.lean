import Mathlib
import PlanningGame.Proofs.Reached

/-!
# What a diagram depends on

The variables tested in an ordered diagram are those on which its function depends, also where other
diagrams of the store are out of order. What is visited from some edges is the terminal and all that
lies below them, each position once, so the size of a diagram is the number of its nodes. It does
not change with a mark, and ordered diagrams with one function have one size.
-/
namespace PlanningGame

open Diagram

namespace Store

variable {s : Store} {e f : Edge} {vars : Set Var}

/-- The edge leads to an ordered diagram over the given variables. -/
structure OrderedOver (store : Store) (vars : Set Var) (e : Edge) : Prop where
  has : store.Has e
  ascends : store.Ascends e
  mem_of_mem_support : ∀ v ∈ store.support e, v ∈ vars

namespace OrderedOver

theorem of_index_eq (h : s.OrderedOver vars e) (heq : f.index = e.index) :
    s.OrderedOver vars f := by
  refine ⟨?_, h.ascends.of_index_eq heq, ?_⟩
  · have hhas := h.has
    unfold Has at hhas ⊢
    rwa [heq]
  · rw [support_eq_of_index_eq heq]
    exact h.mem_of_mem_support

variable (hs : s.Founded)
include hs

theorem var_mem (h : s.OrderedOver vars e) (hi : e.index ≠ 1) : (s.node e.index).var ∈ vars :=
  h.mem_of_mem_support _ (hs.mem_support_of_descends h.has (.refl e) hi)

theorem low (h : s.OrderedOver vars e) : s.OrderedOver vars (s.low e) :=
  ⟨hs.has_low h.has, h.ascends.low hs, fun v hv =>
    h.mem_of_mem_support v (hs.mem_support_of_mem_low h.has hv)⟩

theorem high (h : s.OrderedOver vars e) : s.OrderedOver vars (s.high e) :=
  ⟨hs.has_high h.has, h.ascends.high hs, fun v hv =>
    h.mem_of_mem_support v (hs.mem_support_of_mem_high h.has hv)⟩

theorem of_descends (h : s.OrderedOver vars e) (hd : s.Descends e f.index) :
    s.OrderedOver vars f := by
  generalize hj : f.index = j at hd
  induction hd with
  | refl e => exact h.of_index_eq hj
  | low _ ih => exact ih (h.low hs) hj
  | high _ ih => exact ih (h.high hs) hj

end OrderedOver

end Store

/-- The size of a diagram is the number of positions below it, the terminal included. -/
theorem Store.Founded.diagramSize_eq_ncard {store : Store} {e : Edge} (h : store.Founded)
    (he : store.Has e) : store.diagramSize e = {j | j = 1 ∨ store.Descends e j}.ncard := by
  have hnodup : (store.reachable [e]).toList.Nodup :=
    Std.TreeSet.distinct_toList.imp fun hne heq => hne (Std.LawfulEqOrd.compare_eq_iff_eq.2 heq)
  have hset : ((store.reachable [e]).toList.toFinset : Set Nat) =
      {j | j = 1 ∨ store.Descends e j} := by
    ext j
    rw [List.coe_toFinset, Set.mem_ofPred_eq, Std.TreeSet.mem_toList,
      h.mem_reachable_iff (by simpa using he)]
    simp
  rw [Store.diagramSize, ← Std.TreeSet.length_toList, ← List.toFinset_card_of_nodup hnodup,
    ← Set.ncard_coe_finset, hset]

/-- The unmarked edge to one of the first positions. -/
def Edge.ofFin (i : Fin 6) : Edge :=
  ⟨i, false, i.isLt.trans (by decide)⟩

namespace Manager

variable {sizes : TableSizes} {journal : Journal} {origin m : Manager}

/-- In a reached manager, the support of an ordered diagram consists of the variables that it
depends on. The positions reached from some edges are the terminal and what lies below the edges.
Negation keeps the size of a diagram, and ordered diagrams with one function have one size. -/
theorem support_exact (hcreate : create sizes journal = .ok origin) (hreach : origin.Leads m)
    {e : Edge} (he : m.store.Has e) (hascends : m.store.Ascends e) {roots : List Edge}
    (hroots : ∀ r ∈ roots, m.store.Has r) :
    (∀ v, v ∈ m.store.support e ↔ m.store.DependsOn e v) ∧
      (∀ j, j ∈ m.store.reachable roots ↔ j = 1 ∨ ∃ r ∈ roots, m.store.Descends r j) ∧
      m.store.diagramSize e = {j | j = 1 ∨ m.store.Descends e j}.ncard ∧
      m.store.diagramSize (-e) = m.store.diagramSize e ∧
      ∀ f, m.store.Has f → m.store.Ascends f → (∀ a, m.store.eval f a = m.store.eval e a) →
        m.store.diagramSize f = m.store.diagramSize e := by
  have hs := hreach.replayable hcreate
  refine ⟨fun v => hascends.mem_support_iff hs he, fun j => hs.mem_reachable_iff hroots,
    hs.diagramSize_eq_ncard he, rfl, fun f hf hascends' heq => ?_⟩
  have hsame : m.store.Denotes f fun a => m.store.eval e a = true := ⟨hf, fun a => by rw [heq]⟩
  rw [hascends'.eq_of_denotes hascends hs hsame he.denotes]

/-- The manager that a call leads to. -/
def after (m : Manager) (call : Call) : Manager :=
  (call.run.run.run m).2

theorem Leads.after {call : Call} (hreach : origin.Leads m) (hcall : call.Belongs m.store)
    (hok : answersWith call.run m (fun _ _ => true) = true) : origin.Leads (m.after call) := by
  obtain ⟨_, n, hrun, -⟩ := exists_run_of_answersWith hok
  have hstep := hreach.run hcall hrun
  rwa [Manager.after, hrun]

/-- Two variables, their exclusive disjunction, and a decision that tests them in the opposite
order. -/
def crossed : Manager :=
  let origin : Manager := { store := .blank }
  (((origin.after (.diagram (.literal 0x7FFFFFFF))).after (.diagram (.literal 3))).after
    (.diagram (.differ (.ofFin 3) (.ofFin 2)))).after
      (.diagram (.branch 0x7FFFFFFF .zero (.ofFin 3)))

theorem create_crossed : create ⟨1, 1⟩ {} = .ok { store := .blank } :=
  rfl

theorem leads_crossed : Leads { store := .blank } crossed := by
  refine ((((Leads.refl _).after ?_ ?_).after ?_ ?_).after ?_ ?_).after ?_ ?_
  · exact fun _ huses => False.elim huses
  · decide +kernel
  · exact fun _ huses => False.elim huses
  · decide +kernel
  · rintro _ (rfl | rfl) <;> exact ⟨by decide, by decide +kernel⟩
  · decide +kernel
  · rintro _ (rfl | rfl) <;> exact ⟨by decide, by decide +kernel⟩
  · decide +kernel

theorem has_crossed {e : Edge} (hpos : 0 < e.index) (hle : e.index ≤ 5) : crossed.store.Has e :=
  ⟨hpos, hle.trans (by decide +kernel)⟩

theorem ascends_crossed : crossed.store.Ascends (-Edge.ofFin 4) :=
  Store.ascends_of_ascendsWithin 3 (by decide +kernel)

theorem support_crossed : crossed.store.support (-Edge.ofFin 4) = [3, 0x7FFFFFFF] := by
  decide +kernel

theorem not_ordered_crossed : ¬ crossed.store.Ordered := by
  intro hordered
  have hnode : crossed.store.node? 5 = some ⟨0x7FFFFFFF, .zero, .ofFin 3⟩ := by decide +kernel
  exact absurd (hordered 5 _ (by decide) hnode).2 (by decide +kernel)

/-- The exclusive disjunction, beside a diagram that tests the same variables out of order. -/
theorem support_exact_crossed :
    let e : Edge := -Edge.ofFin 4
    let torn : Edge := .ofFin 5
    ¬ crossed.store.Ordered ∧ crossed.store.Ascends e ∧ ¬ crossed.store.Ascends torn ∧
      crossed.store.DependsOn e 3 ∧ crossed.store.DependsOn e 0x7FFFFFFF ∧
      ¬ crossed.store.DependsOn e 4 ∧ (∃ r ∈ [e, torn], crossed.store.Descends r 3) ∧
      {j | j = 1 ∨ crossed.store.Descends e j}.ncard = 3 ∧ crossed.store.diagramSize (-e) = 3 := by
  intro e torn
  have hroots : ∀ r ∈ [e, torn], crossed.store.Has r := by
    rw [List.forall_mem_cons, List.forall_mem_singleton]
    exact ⟨has_crossed (by decide) (by decide), has_crossed (by decide) (by decide)⟩
  obtain ⟨hsupport, hreachable, hsize, hneg, -⟩ := support_exact create_crossed leads_crossed
    (hroots e (by simp)) ascends_crossed hroots
  have hthree : crossed.store.diagramSize e = 3 := by decide +kernel
  have htorn : ¬ crossed.store.Ascends torn := by
    intro h
    cases h with
    | terminal hi => exact absurd hi (by decide)
    | inner _ _ hbelow => exact absurd hbelow (by decide +kernel)
  refine ⟨not_ordered_crossed, ascends_crossed, htorn, (hsupport _).1 (by decide +kernel),
    (hsupport _).1 (by decide +kernel), mt (hsupport _).2 (by decide +kernel), ?_,
    hsize.symm.trans hthree, hneg.trans hthree⟩
  exact ((hreachable 3).1 (by decide +kernel)).resolve_left (by decide)

end Manager

end PlanningGame
