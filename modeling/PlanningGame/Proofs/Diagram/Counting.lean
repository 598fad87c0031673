import Mathlib
import PlanningGame.Diagram.Models
import PlanningGame.Proofs.Diagram.Dependence

/-!
# Counting models

The models of a diagram over some variables are the sets of these variables that make it true. The
topmost variable of an ordered diagram does not matter to its branches, so each of them has twice as
many models as it has models that follow it, and the sum of both is twice the number of models of
the diagram. A count that halves such sums is exact, whatever counts it has kept.
-/
namespace PlanningGame

open Diagram

namespace Valuation

/-- The valuation that makes the variables of a set true. -/
def ofSet (trues : Finset Var) : Valuation :=
  fun v => decide (v ∈ trues)

variable {trues : Finset Var} {v : Var}

theorem ofSet_insert : ofSet (insert v trues) = (ofSet trues).update v true := by
  funext w
  by_cases h : w = v <;> simp [ofSet, update, h]

theorem ofSet_of_not_mem (hv : v ∉ trues) : ofSet trues v = false :=
  decide_eq_false hv

end Valuation

namespace Store

variable {s : Store} {e : Edge} {vars : Finset Var} {v : Var} {n : Nat}

section Models

/-- The sets of the given variables that make the function true when all others are false. -/
def models (store : Store) (e : Edge) (vars : Finset Var) : Finset (Finset Var) :=
  vars.powerset.filter fun trues => store.eval e (.ofSet trues) = true

theorem card_models_one : (s.models .one vars).card = 2 ^ vars.card := by
  simp [models]

theorem card_models_zero : (s.models .zero vars).card = 0 := by
  simp [models]

theorem card_models_neg (hs : s.Founded) (he : s.Has e) :
    (s.models e vars).card + (s.models (-e) vars).card = 2 ^ vars.card := by
  have hneg : s.models (-e) vars =
      vars.powerset.filter fun trues => ¬ s.eval e (.ofSet trues) = true := by
    simp only [models, hs.eval_neg he, Bool.not_eq_true', Bool.not_eq_true]
  rw [hneg, models, Finset.card_filter_add_card_filter_not, Finset.card_powerset]

/-- A variable is left out of the counted sets, or it is added to them. -/
theorem card_models_insert (hv : v ∉ vars) :
    (s.models e (insert v vars)).card =
      (∑ trues ∈ vars.powerset, (s.eval e (.ofSet trues)).toNat) +
        ∑ trues ∈ vars.powerset, (s.eval e ((Valuation.ofSet trues).update v true)).toNat := by
  simp only [models, Finset.card_filter, Finset.sum_powerset_insert hv, Valuation.ofSet_insert,
    Bool.toNat, cond_eq_ite]

/-- The models of both branches are twice the models of a decision by a variable that does not
matter to the branches. -/
theorem two_mul_card_models {low high : Edge} (hv : v ∈ vars) (hlow : s.Ignores low v)
    (hhigh : s.Ignores high v)
    (heval : ∀ a, s.eval e a = if a v then s.eval high a else s.eval low a) :
    2 * (s.models e vars).card = (s.models low vars).card + (s.models high vars).card := by
  obtain ⟨rest, hrest, rfl⟩ : ∃ rest, v ∉ rest ∧ insert v rest = vars :=
    ⟨vars.erase v, Finset.notMem_erase v vars, Finset.insert_erase hv⟩
  have hfalse : ∀ trues ∈ rest.powerset, s.eval e (.ofSet trues) = s.eval low (.ofSet trues) := by
    intro trues hmem
    rw [heval, Valuation.ofSet_of_not_mem fun h => hrest (Finset.mem_powerset.1 hmem h)]
    rfl
  have htrue : ∀ trues ∈ rest.powerset,
      s.eval e ((Valuation.ofSet trues).update v true) = s.eval high (.ofSet trues) := by
    intro trues _
    rw [heval, Valuation.update_self, if_pos rfl, hhigh]
  simp only [card_models_insert hrest, hlow _ true, hhigh _ true]
  rw [Finset.sum_congr rfl fun trues hmem => congrArg Bool.toNat (hfalse trues hmem),
    Finset.sum_congr rfl fun trues hmem => congrArg Bool.toNat (htrue trues hmem)]
  omega

theorem OrderedOver.two_mul_card_models (h : s.OrderedOver vars e) (hs : s.Founded)
    (hi : e.index ≠ 1) : 2 * (s.models e vars).card =
      (s.models (s.low e) vars).card + (s.models (s.high e) vars).card := by
  cases h.ascends with
  | terminal hone => exact absurd hone hi
  | inner _ hbelow hbelow' hlow hhigh =>
    exact Store.two_mul_card_models (h.var_mem hs hi)
      (hlow.ignores_of_below hs (hs.has_low h.has) hbelow (UInt32.le_refl _))
      (hhigh.ignores_of_below hs (hs.has_high h.has) hbelow' (UInt32.le_refl _))
      fun a => hs.eval_inner h.has hi

end Models

section Count

/-- The number of models over `n` variables, of which each that is not among the given ones doubles
it. -/
def modelsAmong (store : Store) (vars : Finset Var) (n : Nat) (e : Edge) : Nat :=
  2 ^ (n - vars.card) * (store.models e vars).card

theorem modelsAmong_zero : s.modelsAmong vars n .zero = 0 := by
  rw [modelsAmong, card_models_zero, Nat.mul_zero]

theorem modelsAmong_one (hn : vars.card ≤ n) : s.modelsAmong vars n .one = 2 ^ n := by
  rw [modelsAmong, card_models_one, ← Nat.pow_add, Nat.sub_add_cancel hn]

theorem OrderedOver.two_mul_modelsAmong (h : s.OrderedOver vars e) (hs : s.Founded)
    (hi : e.index ≠ 1) : 2 * s.modelsAmong vars n e =
      s.modelsAmong vars n (s.low e) + s.modelsAmong vars n (s.high e) := by
  unfold modelsAmong
  rw [Nat.mul_left_comm, h.two_mul_card_models hs hi, Nat.mul_add]

/-- Every kept count is the given one. -/
def KeepsOnly (value : Edge → Nat) (memo : Std.HashMap Edge Nat) : Prop :=
  ∀ (g : Edge) (count : Nat), memo[g]? = some count → count = value g

/-- Whatever right counts were kept before, the operation answers as given and keeps right counts
only. -/
def Tallies {α : Type} (value : Edge → Nat) (op : StateM (Std.HashMap Edge Nat) α) (answer : α) :
    Prop :=
  ∀ memo, KeepsOnly value memo →
    (op.run memo).run.1 = answer ∧ KeepsOnly value (op.run memo).run.2

variable {α β : Type} {value : Edge → Nat} {a : α} {b : β}

theorem tallies_pure (a : α) : Tallies value (pure a) a :=
  fun _ hmemo => ⟨rfl, hmemo⟩

theorem Tallies.bind {op : StateM (Std.HashMap Edge Nat) α}
    {next : α → StateM (Std.HashMap Edge Nat) β} (h : Tallies value op a)
    (hnext : Tallies value (next a) b) : Tallies value (op >>= next) b := by
  intro memo hmemo
  obtain ⟨rfl, hright⟩ := h memo hmemo
  exact hnext _ hright

/-- What is kept may be read. -/
theorem Tallies.of_get {next : Std.HashMap Edge Nat → StateM (Std.HashMap Edge Nat) α}
    (hnext : ∀ memo, KeepsOnly value memo → Tallies value (next memo) a) :
    Tallies value (get >>= next) a :=
  fun memo hmemo => hnext memo hmemo memo hmemo

/-- A right count may be kept. -/
theorem tallies_insert (e : Edge) :
    Tallies value (modify (Std.HashMap.insert · e (value e))) PUnit.unit := by
  refine fun memo hmemo => ⟨rfl, fun g count hcount => ?_⟩
  change (Std.HashMap.insert memo e (value e))[g]? = some count at hcount
  rw [Std.HashMap.getElem?_insert] at hcount
  split at hcount
  · next heq =>
      obtain rfl := eq_of_beq heq
      exact (Option.some.inj hcount).symm
  · exact hmemo g count hcount

/-- The count of an ordered diagram is its number of models, and the sum that it halves is even. -/
theorem OrderedOver.tallies_countWithin (hs : s.Founded) (hn : vars.card ≤ n) (depth : Nat)
    (h : s.OrderedOver vars e) (hd : e.index ≤ depth) :
    Tallies (s.modelsAmong vars n) (s.countWithin (2 ^ n) depth e) (s.modelsAmong vars n e) := by
  induction depth generalizing e with
  | zero => exact absurd h.has.1 (by omega)
  | succ depth ih =>
    rw [countWithin]
    split
    · next hzero =>
      rw [hzero, modelsAmong_zero]
      exact tallies_pure 0
    split
    · next hone =>
      rw [hone, modelsAmong_one hn]
      exact tallies_pure (2 ^ n)
    next hzero hone =>
    have hi := Edge.index_ne_one hone hzero
    have hlow := hs.low_lt h.has hi
    have hhigh := hs.high_lt h.has hi
    refine Tallies.of_get fun memo hmemo => ?_
    cases hfound : memo[e]? with
    | some count =>
      obtain rfl := hmemo e count hfound
      exact tallies_pure _
    | none =>
      refine (ih (h.low hs) (by omega)).bind ((ih (h.high hs) (by omega)).bind ?_)
      dsimp only
      rw [← h.two_mul_modelsAmong hs hi, Nat.mul_div_cancel_left _ two_pos]
      exact (tallies_insert e).bind (tallies_pure _)

theorem OrderedOver.modelCount_eq (h : s.OrderedOver vars e) (hs : s.Founded)
    (hn : vars.card ≤ n) : s.modelCount e n = s.modelsAmong vars n e :=
  (h.tallies_countWithin hs hn e.index le_rfl ∅ fun g count hcount => by simp at hcount).1

end Count

end Store

namespace Manager

variable {sizes : TableSizes} {journal : Journal} {origin m : Manager} {e : Edge} {n : Nat}

/-- The count of an ordered diagram over at least as many variables as it tests is its number of
models over any such number of variables that include those tested, and each variable more doubles
it. At every node below the diagram, the counts of the two branches add up to an even number, and
those of the diagram and of its negation to the number of all valuations. -/
theorem modelCount_exact (hcreate : create sizes journal = .ok origin) (hreach : origin.Leads m)
    (he : m.store.Has e) (hascends : m.store.Ascends e)
    (hn : (m.store.support e).length ≤ n) :
    (∀ vars : Finset Var, (∀ v ∈ m.store.support e, v ∈ vars) → vars.card = n →
        m.store.modelCount e n = (m.store.models e vars).card) ∧
      (∀ vars : Finset Var, (∀ v ∈ m.store.support e, v ∈ vars) → vars.card ≤ n →
        m.store.modelCount e n = 2 ^ (n - vars.card) * (m.store.models e vars).card) ∧
      (∀ g, m.store.Descends e g.index → g.index ≠ 1 →
        m.store.modelCount (m.store.low g) n + m.store.modelCount (m.store.high g) n =
          2 * m.store.modelCount g n) ∧
      m.store.modelCount e n + m.store.modelCount (-e) n = 2 ^ n := by
  have hs := (hreach.replayable hcreate).toFounded
  have hover : ∀ vars : Finset Var, (∀ v ∈ m.store.support e, v ∈ vars) →
      m.store.OrderedOver vars e := fun vars hvars => ⟨he, hascends, hvars⟩
  let tested := (m.store.support e).toFinset
  have htested := hover tested fun v hv => List.mem_toFinset.2 hv
  have hcard : tested.card ≤ n := (List.toFinset_card_le _).trans hn
  refine ⟨fun vars hvars heq => ?_, fun vars hvars hle => (hover vars hvars).modelCount_eq hs hle,
    fun g hd hi => ?_, ?_⟩
  · rw [(hover vars hvars).modelCount_eq hs heq.le, Store.modelsAmong, heq, Nat.sub_self,
      Nat.pow_zero, Nat.one_mul]
  · have hg := htested.of_descends hs hd
    rw [hg.modelCount_eq hs hcard, (hg.low hs).modelCount_eq hs hcard,
      (hg.high hs).modelCount_eq hs hcard, hg.two_mul_modelsAmong hs hi]
  · rw [htested.modelCount_eq hs hcard, (htested.of_index_eq (Edge.neg_index e)).modelCount_eq hs
      hcard, Store.modelsAmong, Store.modelsAmong, ← Nat.mul_add, Store.card_models_neg hs he,
      ← Nat.pow_add, Nat.sub_add_cancel hcard]

/-- The exclusive disjunction of the variables three and 0x7FFFFFFF, counted over one more variable,
whose number lies between theirs. -/
theorem modelCount_exact_crossed :
    let e : Edge := -Edge.ofFin 4
    let vars : Finset Var := {3, 7, 0x7FFFFFFF}
    (∀ v ∈ crossed.store.support e, v ∈ vars) ∧ 7 ∉ crossed.store.support e ∧
      crossed.store.modelCount e 3 = 4 ∧ (crossed.store.models e vars).card = 4 ∧
      crossed.store.modelCount (crossed.store.low e) 3 +
        crossed.store.modelCount (crossed.store.high e) 3 = 2 * crossed.store.modelCount e 3 ∧
      crossed.store.modelCount e 3 + crossed.store.modelCount (-e) 3 = 2 ^ 3 := by
  intro e vars
  have hsupport : crossed.store.support e = [3, 0x7FFFFFFF] := support_crossed
  have hfour : (crossed.store.models e vars).card = 4 := by decide +kernel
  have hover : ∀ v ∈ crossed.store.support e, v ∈ vars := by
    simp [hsupport, vars]
  obtain ⟨hexact, -, heven, hsum⟩ := modelCount_exact (n := 3) create_crossed leads_crossed
    (has_crossed (by decide) (by decide)) ascends_crossed (by rw [hsupport]; decide)
  exact ⟨hover, by rw [hsupport]; decide, (hexact vars hover (by decide)).trans hfour, hfour,
    heven e (.refl e) (by decide), hsum⟩

end Manager

end PlanningGame
