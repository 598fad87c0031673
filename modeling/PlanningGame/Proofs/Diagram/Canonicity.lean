import Mathlib
import PlanningGame.Diagram.Evaluation
import PlanningGame.Proofs.UniqueTable

/-!
# Canonicity of stores

In a reduced store variables increase from the root to the terminal, every node has two different
edges and is kept once, and no high edge is marked. An unmarked edge is then true when every
variable is true, so the mark of an edge can be read off its function, and by induction on the
positions two edges with the same function are equal.
-/
namespace PlanningGame

namespace Edge

@[simp] theorem neg_index (e : Edge) : (-e).index = e.index := rfl

@[simp] theorem neg_negated (e : Edge) : (-e).negated = !e.negated := rfl

instance : InvolutiveNeg Edge where
  neg_neg e := by
    ext <;> simp

@[simp] theorem neg_one : -one = zero := rfl

@[simp] theorem neg_zero : -zero = one := rfl

@[simp] theorem one_index : one.index = 1 := rfl

@[simp] theorem zero_index : zero.index = 1 := rfl

@[simp] theorem complementIf_index (e : Edge) (mark : Bool) :
    (e.complementIf mark).index = e.index := by
  cases mark <;> rfl

@[simp] theorem complementIf_negated (e : Edge) (mark : Bool) :
    (e.complementIf mark).negated = (e.negated != mark) := by
  cases mark <;> simp [complementIf]

@[simp] theorem complementIf_false (e : Edge) : e.complementIf false = e := rfl

@[simp] theorem complementIf_true (e : Edge) : e.complementIf true = -e := rfl

theorem complementIf_not (e : Edge) (mark : Bool) :
    e.complementIf (!mark) = -(e.complementIf mark) := by
  cases mark <;> simp

theorem isTerminal_iff {e : Edge} : e.isTerminal = true ↔ e.index = 1 := by
  simp [isTerminal]

theorem eq_of_index_eq_one {e : Edge} (h : e.index = 1) : e = one ∨ e = zero := by
  cases hn : e.negated
  · exact .inl (Edge.ext h hn)
  · exact .inr (Edge.ext h hn)

theorem index_ne_one {e : Edge} (hone : e ≠ one) (hzero : e ≠ zero) : e.index ≠ 1 :=
  fun hi => (eq_of_index_eq_one hi).elim hone hzero

theorem complementIf_injective (mark : Bool) {e f : Edge}
    (h : e.complementIf mark = f.complementIf mark) : e = f := by
  cases mark
  · exact h
  · exact neg_injective h

@[simp] theorem regular_complementIf (e : Edge) : e.regular.complementIf e.negated = e := by
  ext <;> simp [regular]

end Edge

namespace Valuation

@[simp] theorem update_self (a : Valuation) (v : Var) (value : Bool) :
    a.update v value v = value := by
  simp [update]

theorem update_of_ne (a : Valuation) {v w : Var} (h : w ≠ v) (value : Bool) :
    a.update v value w = a w := by
  simp [update, h]

@[simp] theorem update_eq_self (a : Valuation) (v : Var) : a.update v (a v) = a := by
  funext w
  by_cases h : w = v
  · subst h; simp
  · exact update_of_ne a h _

@[simp] theorem update_update (a : Valuation) (v : Var) (x y : Bool) :
    (a.update v x).update v y = a.update v y := by
  funext w
  by_cases h : w = v <;> simp [update, h]

theorem assign_of_not_mem {vars : List Var} {v : Var} (hv : v ∉ vars) (a : Valuation)
    (values : List Bool) : a.assign vars values v = a v := by
  induction vars generalizing a values with
  | nil => cases values <;> rfl
  | cons w rest ih =>
    obtain ⟨hne, hrest⟩ := not_or.1 (mt List.mem_cons.2 hv)
    cases values with
    | nil => rfl
    | cons value values => rw [assign, ih hrest, update_of_ne a hne]

/-- An assignment reads the given valuation at the same variable only. -/
theorem assign_congr {a b : Valuation} {v : Var} (h : a v = b v) (vars : List Var)
    (values : List Bool) : a.assign vars values v = b.assign vars values v := by
  induction vars generalizing a b values with
  | nil => cases values <;> exact h
  | cons w rest ih =>
    cases values with
    | nil => exact h
    | cons value values =>
      refine ih ?_ values
      unfold update
      split <;> trivial

theorem assign_append {vars : List Var} {values : List Bool} (a : Valuation)
    (hlength : values.length = vars.length) (more : List Var) (rest : List Bool) :
    a.assign (vars ++ more) (values ++ rest) = (a.assign vars values).assign more rest := by
  induction vars generalizing a values with
  | nil => rw [List.length_eq_zero_iff.1 hlength]; rfl
  | cons v vars ih =>
    cases values with
    | nil => exact absurd hlength (by simp)
    | cons value values => exact ih _ (by simpa using hlength)

/-- Giving variables the values that they have in another valuation. -/
theorem assign_map (a b : Valuation) (vars : List Var) (v : Var) :
    a.assign vars (vars.map b) v = if v ∈ vars then b v else a v := by
  induction vars generalizing a with
  | nil => rfl
  | cons w rest ih =>
    rw [List.map_cons, assign, ih]
    by_cases hrest : v ∈ rest
    · simp [hrest]
    · by_cases hvw : v = w
      · simp [hvw]
      · rw [if_neg hrest, if_neg (by simp [hvw, hrest]), update_of_ne a hvw]

theorem map_assign {vars : List Var} {values : List Bool} (a : Valuation) (hnodup : vars.Nodup)
    (hlength : values.length = vars.length) : vars.map (a.assign vars values) = values := by
  induction vars generalizing a values with
  | nil => exact (List.length_eq_zero_iff.1 hlength).symm
  | cons v rest ih =>
    obtain ⟨hv, hrest⟩ := List.nodup_cons.1 hnodup
    cases values with
    | nil => exact absurd hlength (by simp)
    | cons value values =>
      rw [assign, List.map_cons, ih _ hrest (by simpa using hlength), assign_of_not_mem hv,
        update_self]

/-- Every list of values is read off some valuation. -/
theorem exists_map_eq {vars : List Var} {values : List Bool} (hnodup : vars.Nodup)
    (hlength : values.length = vars.length) : ∃ a : Valuation, vars.map a = values :=
  ⟨_, map_assign (fun _ => false) hnodup hlength⟩

end Valuation

namespace Store

variable {store earlier later : Store}

@[simp] theorem low_neg (store : Store) (e : Edge) : store.low (-e) = -store.low e :=
  Edge.complementIf_not _ _

@[simp] theorem high_neg (store : Store) (e : Edge) : store.high (-e) = -store.high e :=
  Edge.complementIf_not _ _

/-- The edge leads to a node of the store. -/
def Has (store : Store) (e : Edge) : Prop :=
  0 < e.index ∧ e.index ≤ store.nodeCount

theorem has_neg {e : Edge} : store.Has (-e) ↔ store.Has e := Iff.rfl

theorem has_complementIf {e : Edge} (mark : Bool) :
    store.Has (e.complementIf mark) ↔ store.Has e := by
  cases mark <;> rfl

theorem node?_isSome_iff {i : Nat} :
    (store.node? i).isSome ↔ 0 < i ∧ i ≤ store.nodeCount :=
  UniqueTable.value?_isSome_iff

theorem Has.node? {e : Edge} (h : store.Has e) :
    store.node? e.index = some (store.node e.index) := by
  obtain ⟨node, hnode⟩ := Option.isSome_iff_exists.1 (node?_isSome_iff.2 h)
  simp [Store.node, hnode]

theorem has_of_node? {e : Edge} {node : Node} (h : store.node? e.index = some node) :
    store.Has e :=
  node?_isSome_iff.1 (Option.isSome_iff_exists.2 ⟨node, h⟩)

theorem node_of_node? {i : Nat} {node : Node} (h : store.node? i = some node) :
    store.node i = node := by
  simp [Store.node, h]

/-- Every variable below the edge is greater than `v`. -/
def Below (store : Store) (v : Var) (e : Edge) : Prop :=
  e.index = 1 ∨ v < (store.node e.index).var

theorem below_complementIf {v : Var} {e : Edge} (mark : Bool) :
    store.Below v (e.complementIf mark) ↔ store.Below v e := by
  cases mark <;> rfl

theorem Below.trans {v w : Var} {e : Edge} (h : store.Below w e) (hvw : v ≤ w) :
    store.Below v e :=
  h.imp_right (UInt32.lt_of_le_of_lt hvw)

/-- A node that may stand at a position: a decision between two different edges to earlier
positions, with greater variables below them and no mark on the high edge. -/
structure WellPlaced (store : Store) (position : Nat) (node : Node) : Prop where
  var_ne_zero : node.var ≠ 0
  high_unmarked : node.high.negated = false
  low_ne_high : node.low ≠ node.high
  low_pos : 0 < node.low.index
  high_pos : 0 < node.high.index
  low_lt : node.low.index < position
  high_lt : node.high.index < position
  low_below : store.Below node.var node.low
  high_below : store.Below node.var node.high

/-- The terminal stands first, every other node is well placed, and no node is kept twice. -/
structure Reduced (store : Store) : Prop where
  terminal : store.node? 1 = some .terminal
  inner : ∀ i node, 1 < i → store.node? i = some node → store.WellPlaced i node
  unique : ∀ i j node, store.node? i = some node → store.node? j = some node → i = j

/-- A decision between two different edges to earlier positions, with no mark on the high edge. -/
structure Decides (position : Nat) (node : Node) : Prop where
  var_ne_zero : node.var ≠ 0
  high_unmarked : node.high.negated = false
  low_ne_high : node.low ≠ node.high
  low_pos : 0 < node.low.index
  high_pos : 0 < node.high.index
  low_lt : node.low.index < position
  high_lt : node.high.index < position

/-- What is left of a reduced store if its variables may come in any order. Every edge then still
has a function, but two edges may have the same one. -/
structure Founded (store : Store) : Prop where
  terminal : store.node? 1 = some .terminal
  inner : ∀ i node, 1 < i → store.node? i = some node → Decides i node
  unique : ∀ i j node, store.node? i = some node → store.node? j = some node → i = j

/-- Variables increase from the root to the terminal. -/
def Ordered (store : Store) : Prop :=
  ∀ i node, 1 < i → store.node? i = some node →
    store.Below node.var node.low ∧ store.Below node.var node.high

theorem Reduced.founded (h : store.Reduced) : store.Founded :=
  ⟨h.terminal, fun i node hi hnode =>
    have w := h.inner i node hi hnode
    ⟨w.1, w.2, w.3, w.4, w.5, w.6, w.7⟩, h.unique⟩

instance : Coe store.Reduced store.Founded :=
  ⟨Reduced.founded⟩

theorem Reduced.ordered (h : store.Reduced) : store.Ordered := fun i node hi hnode =>
  ⟨(h.inner i node hi hnode).low_below, (h.inner i node hi hnode).high_below⟩

theorem Founded.reduced (h : store.Founded) (ho : store.Ordered) : store.Reduced :=
  ⟨h.terminal, fun i node hi hnode =>
    have w := h.inner i node hi hnode
    ⟨w.1, w.2, w.3, w.4, w.5, w.6, w.7, (ho i node hi hnode).1, (ho i node hi hnode).2⟩, h.unique⟩

/-- The value of the function does not change with the variable. -/
def Ignores (store : Store) (e : Edge) (v : Var) : Prop :=
  ∀ a value, store.eval e (a.update v value) = store.eval e a

section Reading

variable {e f : Edge} {a : Valuation}

theorem Founded.has_one (h : store.Founded) : store.Has .one :=
  has_of_node? h.terminal

theorem Founded.has_zero (h : store.Founded) : store.Has .zero :=
  h.has_one

theorem Reduced.has_one (h : store.Reduced) : store.Has .one :=
  h.founded.has_one

theorem Reduced.has_zero (h : store.Reduced) : store.Has .zero :=
  h.founded.has_zero

theorem Founded.decides (h : store.Founded) (he : store.Has e) (hi : e.index ≠ 1) :
    Decides e.index (store.node e.index) :=
  h.inner _ _ (by have := he.1; omega) he.node?

theorem Founded.has_low (h : store.Founded) (he : store.Has e) : store.Has (store.low e) := by
  refine (has_complementIf _).2 ?_
  by_cases hi : e.index = 1
  · rw [hi, node_of_node? h.terminal]
    exact h.has_one
  · have w := h.decides he hi
    exact ⟨w.low_pos, w.low_lt.le.trans he.2⟩

theorem Founded.has_high (h : store.Founded) (he : store.Has e) : store.Has (store.high e) := by
  refine (has_complementIf _).2 ?_
  by_cases hi : e.index = 1
  · rw [hi, node_of_node? h.terminal]
    exact h.has_one
  · have w := h.decides he hi
    exact ⟨w.high_pos, w.high_lt.le.trans he.2⟩

theorem Founded.low_lt (h : store.Founded) (he : store.Has e) (hi : e.index ≠ 1) :
    (store.low e).index < e.index := by
  simpa [low] using (h.decides he hi).low_lt

theorem Founded.high_lt (h : store.Founded) (he : store.Has e) (hi : e.index ≠ 1) :
    (store.high e).index < e.index := by
  simpa [high] using (h.decides he hi).high_lt

theorem Founded.low_ne_high (h : store.Founded) (he : store.Has e) (hi : e.index ≠ 1) :
    store.low e ≠ store.high e :=
  fun heq => (h.decides he hi).low_ne_high (Edge.complementIf_injective _ heq)

/-- The low and the high edge of the terminal lead back to it. -/
theorem Founded.low_of_isTerminal (h : store.Founded) (hi : e.index = 1) : store.low e = e := by
  obtain rfl | rfl := Edge.eq_of_index_eq_one hi <;> simp [low, node_of_node? h.terminal] <;> rfl

theorem Founded.high_of_isTerminal (h : store.Founded) (hi : e.index = 1) : store.high e = e := by
  obtain rfl | rfl := Edge.eq_of_index_eq_one hi <;> simp [high, node_of_node? h.terminal] <;> rfl

/-- Induction on the nodes below an edge. -/
theorem Founded.edge_induction (h : store.Founded) {motive : Edge → Prop}
    (terminal : ∀ e, e.index = 1 → motive e)
    (inner : ∀ e, store.Has e → e.index ≠ 1 → motive (store.low e) → motive (store.high e) →
      motive e) :
    ∀ e, store.Has e → motive e := by
  intro e he
  induction hn : e.index using Nat.strong_induction_on generalizing e with
  | _ n ih =>
    subst hn
    by_cases hi : e.index = 1
    · exact terminal e hi
    · exact inner e he hi (ih _ (h.low_lt he hi) _ (h.has_low he) rfl)
        (ih _ (h.high_lt he hi) _ (h.has_high he) rfl)

theorem evalWithin_of_isTerminal (hi : e.index = 1) (depth : Nat) :
    store.evalWithin a depth e = decide (e = .one) := by
  cases depth <;> simp [evalWithin, Edge.isTerminal_iff.2 hi]

theorem evalWithin_of_inner (hi : e.index ≠ 1) (depth : Nat) :
    store.evalWithin a (depth + 1) e =
      store.evalWithin a depth
        (if a (store.node e.index).var then store.high e else store.low e) := by
  simp [evalWithin, Edge.isTerminal, hi]

/-- Any depth from the position of the edge on reads the same value. -/
theorem Founded.evalWithin_eq_eval (h : store.Founded) (he : store.Has e) {depth : Nat}
    (hd : e.index ≤ depth) : store.evalWithin a depth e = store.eval e a := by
  suffices key : ∀ e, store.Has e → ∀ m n, e.index ≤ m → e.index ≤ n →
      store.evalWithin a m e = store.evalWithin a n e from key e he _ _ hd le_rfl
  refine h.edge_induction ?_ ?_
  · intro e hi m n _ _
    rw [evalWithin_of_isTerminal hi, evalWithin_of_isTerminal hi]
  · intro e he hi ihl ihh m n hm hn
    have hl := h.low_lt he hi
    have hh := h.high_lt he hi
    obtain ⟨m, rfl⟩ := Nat.exists_eq_add_one_of_ne_zero (show m ≠ 0 by omega)
    obtain ⟨n, rfl⟩ := Nat.exists_eq_add_one_of_ne_zero (show n ≠ 0 by omega)
    rw [evalWithin_of_inner hi, evalWithin_of_inner hi]
    split
    · exact ihh _ _ (by omega) (by omega)
    · exact ihl _ _ (by omega) (by omega)

@[simp] theorem eval_one : store.eval .one a = true := by
  rw [eval, evalWithin_of_isTerminal rfl]
  rfl

@[simp] theorem eval_zero : store.eval .zero a = false := by
  rw [eval, evalWithin_of_isTerminal rfl]
  rfl

theorem Founded.eval_inner (h : store.Founded) (he : store.Has e) (hi : e.index ≠ 1) :
    store.eval e a =
      if a (store.node e.index).var then store.eval (store.high e) a
      else store.eval (store.low e) a := by
  have hl := h.low_lt he hi
  have hh := h.high_lt he hi
  obtain ⟨n, hn⟩ := Nat.exists_eq_add_one_of_ne_zero (show e.index ≠ 0 by omega)
  rw [eval, hn, evalWithin_of_inner hi, ← hn]
  split
  · exact h.evalWithin_eq_eval (h.has_high he) (by omega)
  · exact h.evalWithin_eq_eval (h.has_low he) (by omega)

theorem Founded.eval_neg (h : store.Founded) (he : store.Has e) :
    store.eval (-e) a = !store.eval e a := by
  refine h.edge_induction (motive := fun e => store.eval (-e) a = !store.eval e a) ?_ ?_ e he
  · intro e hi
    obtain rfl | rfl := Edge.eq_of_index_eq_one hi <;> simp
  · intro e he hi ihl ihh
    rw [h.eval_inner he hi, h.eval_inner (e := -e) he hi, low_neg, high_neg, ihl, ihh,
      Edge.neg_index]
    split <;> rfl

theorem Founded.eval_complementIf (h : store.Founded) (he : store.Has e) (mark : Bool) :
    store.eval (e.complementIf mark) a = (store.eval e a != mark) := by
  cases mark
  · simp
  · simp [h.eval_neg he]

/-- The mark of an edge is the negation of its value when every variable is true. -/
theorem Founded.eval_true (h : store.Founded) (he : store.Has e) :
    store.eval e (fun _ => true) = !e.negated := by
  refine h.edge_induction
    (motive := fun e => store.eval e (fun _ => true) = !e.negated) ?_ ?_ e he
  · intro e hi
    obtain rfl | rfl := Edge.eq_of_index_eq_one hi <;> simp <;> rfl
  · intro e he hi _ ihh
    rw [h.eval_inner he hi, if_pos rfl, ihh, high, Edge.complementIf_negated,
      (h.decides he hi).high_unmarked]
    cases e.negated <;> rfl

end Reading

section Dependence

variable {e f : Edge} {v w : Var}

theorem Ignores.neg (h : store.Founded) (he : store.Has e) (hv : store.Ignores e v) :
    store.Ignores (-e) v := by
  intro a value
  rw [h.eval_neg he, h.eval_neg he, hv]

/-- The branches of an inner edge lie below its variable. -/
theorem Reduced.low_below (h : store.Reduced) (he : store.Has e) (hi : e.index ≠ 1) :
    store.Below (store.node e.index).var (store.low e) :=
  (below_complementIf _).2 (h.inner _ _ (by have := he.1; omega) he.node?).low_below

theorem Reduced.high_below (h : store.Reduced) (he : store.Has e) (hi : e.index ≠ 1) :
    store.Below (store.node e.index).var (store.high e) :=
  (below_complementIf _).2 (h.inner _ _ (by have := he.1; omega) he.node?).high_below

/-- A variable above all those of a diagram does not matter. -/
theorem Reduced.ignores_of_below (h : store.Reduced) (he : store.Has e) (hb : store.Below v e)
    (hw : w ≤ v) : store.Ignores e w := by
  revert e w
  suffices key : ∀ e, store.Has e → ∀ w, store.Below w e → store.Ignores e w from
    fun e w he hb hw => key e he w (hb.trans hw)
  refine h.founded.edge_induction ?_ ?_
  · intro e hi w _ a value
    obtain rfl | rfl := Edge.eq_of_index_eq_one hi <;> simp
  · intro e he hi ihl ihh w hb a value
    obtain hb | hb := hb
    · exact absurd hb hi
    · have hl := ihl w ((h.low_below he hi).trans (UInt32.le_of_lt hb)) a value
      have hh := ihh w ((h.high_below he hi).trans (UInt32.le_of_lt hb)) a value
      rw [h.founded.eval_inner he hi, h.founded.eval_inner he hi, hl, hh,
        Valuation.update_of_ne a (UInt32.ne_of_lt hb).symm]

theorem Reduced.low_ignores (h : store.Reduced) (he : store.Has e) (hi : e.index ≠ 1) :
    store.Ignores (store.low e) (store.node e.index).var :=
  h.ignores_of_below (h.founded.has_low he) (h.low_below he hi) (UInt32.le_refl _)

theorem Reduced.high_ignores (h : store.Reduced) (he : store.Has e) (hi : e.index ≠ 1) :
    store.Ignores (store.high e) (store.node e.index).var :=
  h.ignores_of_below (h.founded.has_high he) (h.high_below he hi) (UInt32.le_refl _)

/-- If a diagram ignores its topmost variable then both branches have one function. -/
theorem Reduced.eval_low_eq_high (h : store.Reduced) (he : store.Has e) (hi : e.index ≠ 1)
    (hig : store.Ignores e (store.node e.index).var) (a : Valuation) :
    store.eval (store.low e) a = store.eval (store.high e) a :=
  let v := (store.node e.index).var
  calc store.eval (store.low e) a
      = store.eval (store.low e) (a.update v false) := (h.low_ignores he hi a false).symm
    _ = store.eval e (a.update v false) := by rw [h.founded.eval_inner he hi]; simp [v]
    _ = store.eval e (a.update v true) := by rw [hig, hig]
    _ = store.eval (store.high e) (a.update v true) := by rw [h.founded.eval_inner he hi]; simp [v]
    _ = store.eval (store.high e) a := h.high_ignores he hi a true

/-- Diagrams with one function and one topmost variable have branches with one function each. -/
theorem Reduced.eval_branches_eq (h : store.Reduced) (he : store.Has e) (hf : store.Has f)
    (hei : e.index ≠ 1) (hfi : f.index ≠ 1)
    (hvar : (store.node e.index).var = (store.node f.index).var)
    (heq : ∀ a, store.eval e a = store.eval f a) (a : Valuation) :
    store.eval (store.low e) a = store.eval (store.low f) a ∧
      store.eval (store.high e) a = store.eval (store.high f) a := by
  have hfalse := heq (a.update (store.node e.index).var false)
  have htrue := heq (a.update (store.node e.index).var true)
  rw [h.founded.eval_inner he hei, h.founded.eval_inner hf hfi, ← hvar] at hfalse htrue
  simp only [Valuation.update_self, Bool.false_eq_true, if_false, if_true] at hfalse htrue
  rw [h.low_ignores he hei, hvar, h.low_ignores hf hfi] at hfalse
  rw [h.high_ignores he hei, hvar, h.high_ignores hf hfi] at htrue
  exact ⟨hfalse, htrue⟩

/-- Edges with one mark, one topmost variable and the same branches are equal. -/
theorem Reduced.eq_of_branches_eq (h : store.Reduced) (he : store.Has e) (hf : store.Has f)
    (hmark : e.negated = f.negated)
    (hvar : (store.node e.index).var = (store.node f.index).var)
    (hlow : store.low e = store.low f) (hhigh : store.high e = store.high f) : e = f := by
  unfold low at hlow
  unfold high at hhigh
  rw [hmark] at hlow hhigh
  have hnode : store.node e.index = store.node f.index := by
    cases hne : store.node e.index
    cases hnf : store.node f.index
    rw [hne, hnf] at hlow hhigh hvar
    simp only at hlow hhigh hvar
    rw [hvar, Edge.complementIf_injective _ hlow, Edge.complementIf_injective _ hhigh]
  exact Edge.ext (h.unique _ _ _ he.node? (hnode ▸ hf.node?)) hmark

/-- Two edges with one function are equal. The induction is on a bound of both positions: the
branches of either edge are compared with each other and with those of the other edge. -/
theorem Reduced.eq_of_eval_eq (h : store.Reduced) (he : store.Has e) (hf : store.Has f)
    (heq : ∀ a, store.eval e a = store.eval f a) : e = f := by
  suffices key : ∀ n, ∀ e f : Edge, store.Has e → store.Has f → e.index ≤ n → f.index ≤ n →
      (∀ a, store.eval e a = store.eval f a) → e = f from
    key (max e.index f.index) e f he hf (le_max_left _ _) (le_max_right _ _) heq
  clear he hf heq
  intro n
  induction n with
  | zero => intro e f he _ hn; have := he.1; omega
  | succ n ih =>
    intro e f he hf hen hfn heq
    -- an inner edge does not ignore its topmost variable
    have top : ∀ g : Edge, store.Has g → g.index ≤ n + 1 → g.index ≠ 1 →
        ¬ store.Ignores g (store.node g.index).var := by
      intro g hg hgn hi hig
      have hl := h.founded.low_lt hg hi
      have hh := h.founded.high_lt hg hi
      exact h.founded.low_ne_high hg hi (ih _ _ (h.founded.has_low hg) (h.founded.has_high hg)
        (by omega) (by omega) (h.eval_low_eq_high hg hi hig))
    have hmark : e.negated = f.negated := by
      have := heq fun _ => true
      rw [h.founded.eval_true he, h.founded.eval_true hf] at this
      exact Bool.not_inj this
    have transfer : ∀ v, store.Ignores e v ↔ store.Ignores f v := fun v =>
      ⟨fun hv a value => by rw [← heq, ← heq, hv], fun hv a value => by rw [heq, heq, hv]⟩
    by_cases hei : e.index = 1
    · by_cases hfi : f.index = 1
      · exact Edge.ext (hei.trans hfi.symm) hmark
      · exact absurd ((transfer _).1 (h.ignores_of_below he (.inl hei) (UInt32.le_refl _)))
          (top f hf hfn hfi)
    by_cases hfi : f.index = 1
    · exact absurd ((transfer _).2 (h.ignores_of_below hf (.inl hfi) (UInt32.le_refl _)))
        (top e he hen hei)
    obtain hlt | hvar | hgt : (store.node e.index).var < (store.node f.index).var ∨
        (store.node e.index).var = (store.node f.index).var ∨
          (store.node f.index).var < (store.node e.index).var := by grind
    · exact absurd ((transfer _).2 (h.ignores_of_below hf (.inr hlt) (UInt32.le_refl _)))
        (top e he hen hei)
    · have hbranches := h.eval_branches_eq he hf hei hfi hvar heq
      have hel := h.founded.low_lt he hei
      have heh := h.founded.high_lt he hei
      have hfl := h.founded.low_lt hf hfi
      have hfh := h.founded.high_lt hf hfi
      have hlow : store.low e = store.low f :=
        ih _ _ (h.founded.has_low he) (h.founded.has_low hf) (by omega) (by omega)
          fun a => (hbranches a).1
      have hhigh : store.high e = store.high f :=
        ih _ _ (h.founded.has_high he) (h.founded.has_high hf) (by omega) (by omega)
          fun a => (hbranches a).2
      exact h.eq_of_branches_eq he hf hmark hvar hlow hhigh
    · exact absurd ((transfer _).1 (h.ignores_of_below he (.inr hgt) (UInt32.le_refl _)))
          (top f hf hfn hfi)

/-- The constants are the only edges that are never true, or always. -/
theorem Reduced.eq_zero_iff (h : store.Reduced) (he : store.Has e) :
    e = .zero ↔ ∀ a, store.eval e a = false := by
  constructor
  · rintro rfl a
    exact eval_zero
  · exact fun hfalse => h.eq_of_eval_eq he h.has_zero fun a => (hfalse a).trans eval_zero.symm

theorem Reduced.eq_one_iff (h : store.Reduced) (he : store.Has e) :
    e = .one ↔ ∀ a, store.eval e a = true := by
  constructor
  · rintro rfl a
    exact eval_one
  · exact fun htrue => h.eq_of_eval_eq he h.has_one fun a => (htrue a).trans eval_one.symm

/-- Only the variables of a diagram matter, and its topmost variable does. -/
theorem Reduced.below_of_ignores (h : store.Reduced) (he : store.Has e)
    (hig : ∀ w ≤ v, store.Ignores e w) : store.Below v e := by
  by_cases hi : e.index = 1
  · exact .inl hi
  · refine .inr (UInt32.not_le.1 fun hle => ?_)
    exact h.founded.low_ne_high he hi (h.eq_of_eval_eq (h.founded.has_low he)
      (h.founded.has_high he) (h.eval_low_eq_high he hi (hig _ hle)))

end Dependence

end Store

end PlanningGame
