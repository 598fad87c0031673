import Mathlib
import PlanningGame.Diagram.Reachable
import PlanningGame.Proofs.Diagram.Substitution

/-!
# Variables of a diagram

The support of a diagram is read off the nodes below it and does not change while the store grows.
In a reduced store it consists of the variables on which the diagram depends.
-/
namespace PlanningGame.Store

variable {store later : Store} {e : Edge} {v : Var} {j depth : Nat} {seen : Std.TreeSet Nat}

/-- The position is that of the edge or lies below it. -/
inductive Descends (store : Store) : Edge → Nat → Prop
  | refl (e : Edge) : Descends store e e.index
  | low {e : Edge} {j : Nat} : Descends store (store.low e) j → Descends store e j
  | high {e : Edge} {j : Nat} : Descends store (store.high e) j → Descends store e j

@[simp] theorem low_index (store : Store) (e : Edge) :
    (store.low e).index = (store.node e.index).low.index :=
  Edge.complementIf_index _ _

@[simp] theorem high_index (store : Store) (e : Edge) :
    (store.high e).index = (store.node e.index).high.index :=
  Edge.complementIf_index _ _

theorem mem_insert_iff {i : Nat} : j ∈ seen.insert i ↔ j = i ∨ j ∈ seen := by
  rw [Std.TreeSet.mem_insert, Std.LawfulEqOrd.compare_eq_iff_eq, eq_comm]

theorem mem_first_iff : j ∈ (∅ : Std.TreeSet Nat).insert 1 ↔ j = 1 :=
  mem_insert_iff.trans (or_iff_left Std.TreeSet.not_mem_emptyc)

theorem descends_of_mem_visitWithin (h : j ∈ store.visitWithin depth e.index seen) :
    j ∈ seen ∨ store.Descends e j := by
  induction depth generalizing e seen with
  | zero => exact .inl h
  | succ depth ih =>
    rw [visitWithin] at h
    split at h
    · exact .inl h
    dsimp only at h
    rw [← low_index, ← high_index] at h
    rcases ih h with h | hhigh
    · rcases ih h with h | hlow
      · rcases mem_insert_iff.1 h with rfl | h
        · exact .inr (.refl e)
        · exact .inl h
      · exact .inr (.low hlow)
    · exact .inr (.high hhigh)

theorem descends_of_mem_innerPositions (h : j ∈ store.innerPositions [e]) :
    j ≠ 1 ∧ store.Descends e j := by
  obtain ⟨hmem, hne⟩ := List.mem_filter.1 h
  have hne : j ≠ 1 := of_decide_eq_true hne
  exact ⟨hne, (descends_of_mem_visitWithin (Std.TreeSet.mem_toList.1 hmem)).resolve_left
    (mt mem_first_iff.1 hne)⟩

theorem mem_support_iff :
    v ∈ store.support e ↔ ∃ j ∈ store.innerPositions [e], (store.node j).var = v := by
  rw [support, Std.TreeSet.mem_toList, Std.TreeSet.mem_ofList, List.contains_iff_mem, List.mem_map]

theorem support_eq_of_index_eq {f : Edge} (heq : f.index = e.index) :
    store.support f = store.support e := by
  unfold support innerPositions reachable
  rw [List.foldl_cons, List.foldl_cons, heq]

/-- What does not change a function does not change its branches, and is not decided by it. -/
theorem Reduced.ignores_branches (h : store.Reduced) (he : store.Has e) (hi : e.index ≠ 1)
    (hig : store.Ignores e v) :
    (store.node e.index).var ≠ v ∧ store.Ignores (store.low e) v ∧
      store.Ignores (store.high e) v := by
  have hne : (store.node e.index).var ≠ v := by
    rintro rfl
    exact h.founded.low_ne_high he hi (h.eq_of_eval_eq (h.founded.has_low he)
      (h.founded.has_high he) (h.eval_low_eq_high he hi hig))
  -- a branch is the diagram with its topmost variable fixed
  have hlow : ∀ a, store.eval (store.low e) a =
      store.eval e (a.update (store.node e.index).var false) := fun a => by
    rw [h.founded.eval_inner he hi, Valuation.update_self, h.low_ignores he hi]
    rfl
  have hhigh : ∀ a, store.eval (store.high e) a =
      store.eval e (a.update (store.node e.index).var true) := fun a => by
    rw [h.founded.eval_inner he hi, Valuation.update_self, h.high_ignores he hi]
    rfl
  refine ⟨hne, fun a x => ?_, fun a x => ?_⟩
  · rw [hlow, hlow, Valuation.update_comm a hne.symm, hig]
  · rw [hhigh, hhigh, Valuation.update_comm a hne.symm, hig]

/-- A variable that a diagram ignores is not tested below it. -/
theorem Reduced.var_ne_of_descends (h : store.Reduced) (hd : store.Descends e j) (he : store.Has e)
    (hj : j ≠ 1) (hig : store.Ignores e v) : (store.node j).var ≠ v := by
  induction hd with
  | refl e => exact (h.ignores_branches he hj hig).1
  | @low e j hd ih =>
    by_cases hi : e.index = 1
    · exact ih (h.founded.has_low he) hj (by rwa [h.founded.low_of_isTerminal hi])
    · exact ih (h.founded.has_low he) hj (h.ignores_branches he hi hig).2.1
  | @high e j hd ih =>
    by_cases hi : e.index = 1
    · exact ih (h.founded.has_high he) hj (by rwa [h.founded.high_of_isTerminal hi])
    · exact ih (h.founded.has_high he) hj (h.ignores_branches he hi hig).2.2

theorem Reduced.not_mem_support (h : store.Reduced) (he : store.Has e) (hig : store.Ignores e v) :
    v ∉ store.support e := by
  intro hmem
  obtain ⟨j, hj, hvar⟩ := mem_support_iff.1 hmem
  obtain ⟨hne, hd⟩ := descends_of_mem_innerPositions hj
  exact h.var_ne_of_descends hd he hne hig hvar

section Visits

theorem Founded.le_of_descends (h : store.Founded) (he : store.Has e) (hd : store.Descends e j) :
    j ≤ e.index := by
  induction hd with
  | refl e => exact le_rfl
  | @low e j _ ih =>
    by_cases hi : e.index = 1
    · rw [h.low_of_isTerminal hi] at ih
      exact ih he
    · exact (ih (h.has_low he)).trans (h.low_lt he hi).le
  | @high e j _ ih =>
    by_cases hi : e.index = 1
    · rw [h.high_of_isTerminal hi] at ih
      exact ih he
    · exact (ih (h.has_high he)).trans (h.high_lt he hi).le

theorem mem_visitWithin_of_mem (h : j ∈ seen) (depth index : Nat) :
    j ∈ store.visitWithin depth index seen := by
  induction depth generalizing index seen with
  | zero => exact h
  | succ depth ih =>
    rw [visitWithin]
    split
    · exact h
    · exact ih (ih (mem_insert_iff.2 (.inr h)) _) _

/-- The branches of the edge were visited. -/
def Expanded (store : Store) (seen : Std.TreeSet Nat) (e : Edge) : Prop :=
  (store.low e).index ∈ seen ∧ (store.high e).index ∈ seen

theorem Expanded.visitWithin (h : store.Expanded seen e) (depth index : Nat) :
    store.Expanded (store.visitWithin depth index seen) e :=
  ⟨mem_visitWithin_of_mem h.1 _ _, mem_visitWithin_of_mem h.2 _ _⟩

/-- An edge is visited with all that lies below it, if the branches of what was visited before were
visited as well. This is not so of the edges above, which are still being visited. -/
theorem Founded.expanded_visitWithin (h : store.Founded) (he : store.Has e)
    (hdepth : e.index ≤ depth) (hone : 1 ∈ seen)
    (hseen : ∀ f, store.Has f → f.index ∈ seen → f.index ≤ e.index → store.Expanded seen f) :
    e.index ∈ store.visitWithin depth e.index seen ∧
      ∀ f, store.Has f → f.index ∈ store.visitWithin depth e.index seen → f.index ≤ e.index →
        store.Expanded (store.visitWithin depth e.index seen) f := by
  induction depth generalizing e seen with
  | zero => exact absurd he.1 (by omega)
  | succ depth ih =>
    rw [visitWithin]
    split
    · next hmem => exact ⟨hmem, hseen⟩
    next hnew =>
    have hi : e.index ≠ 1 := fun hi => hnew (hi ▸ hone)
    dsimp only
    rw [← low_index, ← high_index]
    have hlow := h.low_lt he hi
    have hhigh := h.high_lt he hi
    -- what was visited before is expanded at all times from now on
    have hold : ∀ f, store.Has f → f.index ∈ seen.insert e.index → f.index < e.index →
        store.Expanded (seen.insert e.index) f := by
      intro f hf hmem hlt
      obtain ⟨hl, hr⟩ := hseen f hf ((mem_insert_iff.1 hmem).resolve_left hlt.ne) hlt.le
      exact ⟨mem_insert_iff.2 (.inr hl), mem_insert_iff.2 (.inr hr)⟩
    obtain ⟨hmemLow, hexpanded⟩ := ih (h.has_low he) (by omega)
      (mem_insert_iff.2 (.inr hone)) fun f hf hmem hle => hold f hf hmem (by omega)
    have hbetween : ∀ f, store.Has f →
        f.index ∈ store.visitWithin depth (store.low e).index (seen.insert e.index) →
        f.index < e.index → store.Expanded
          (store.visitWithin depth (store.low e).index (seen.insert e.index)) f := by
      intro f hf hmem hlt
      rcases descends_of_mem_visitWithin hmem with hbefore | hd
      · exact (hold f hf hbefore hlt).visitWithin _ _
      · exact hexpanded f hf hmem (h.le_of_descends (h.has_low he) hd)
    obtain ⟨hmemHigh, hexpanded'⟩ := ih (h.has_high he) (by omega)
      (mem_visitWithin_of_mem (mem_insert_iff.2 (.inr hone)) _ _)
      fun f hf hmem hle => hbetween f hf hmem (by omega)
    have hself := Std.TreeSet.mem_insert_self (t := seen) (k := e.index)
    refine ⟨mem_visitWithin_of_mem (mem_visitWithin_of_mem hself _ _) _ _, fun f hf hmem hle => ?_⟩
    by_cases heq : f.index = e.index
    · unfold Expanded
      rw [show (store.low f).index = (store.low e).index by rw [low_index, low_index, heq],
        show (store.high f).index = (store.high e).index by rw [high_index, high_index, heq]]
      exact ⟨mem_visitWithin_of_mem hmemLow _ _, hmemHigh⟩
    rcases descends_of_mem_visitWithin hmem with hbefore | hd
    · exact (hbetween f hf hbefore (by omega)).visitWithin _ _
    · exact hexpanded' f hf hmem (h.le_of_descends (h.has_high he) hd)

/-- The terminal was visited, and so were the branches of all that was visited. -/
structure Closed (store : Store) (seen : Std.TreeSet Nat) : Prop where
  terminal : 1 ∈ seen
  expanded : ∀ f, store.Has f → f.index ∈ seen → store.Expanded seen f

theorem Founded.closed_first (h : store.Founded) :
    store.Closed ((∅ : Std.TreeSet Nat).insert 1) := by
  refine ⟨mem_first_iff.2 rfl, fun f _ hmem => ?_⟩
  have hi := mem_first_iff.1 hmem
  unfold Expanded
  rw [h.low_of_isTerminal hi, h.high_of_isTerminal hi]
  exact ⟨hmem, hmem⟩

theorem Closed.visitWithin (hseen : store.Closed seen) (h : store.Founded) (he : store.Has e) :
    e.index ∈ store.visitWithin e.index e.index seen ∧
      store.Closed (store.visitWithin e.index e.index seen) := by
  obtain ⟨hmem, hexpanded⟩ := h.expanded_visitWithin he le_rfl hseen.terminal
    fun f hf hmem _ => hseen.expanded f hf hmem
  refine ⟨hmem, mem_visitWithin_of_mem hseen.terminal _ _, fun f hf hf' => ?_⟩
  rcases descends_of_mem_visitWithin hf' with hbefore | hd
  · exact (hseen.expanded f hf hbefore).visitWithin _ _
  · exact hexpanded f hf hf' (h.le_of_descends he hd)

theorem Closed.mem_of_descends (hseen : store.Closed seen) (h : store.Founded) (he : store.Has e)
    (hmem : e.index ∈ seen) (hd : store.Descends e j) : j ∈ seen := by
  induction hd with
  | refl e => exact hmem
  | @low e j _ ih => exact ih (h.has_low he) (hseen.expanded e he hmem).1
  | @high e j _ ih => exact ih (h.has_high he) (hseen.expanded e he hmem).2

/-- One root after the other, what is visited stays closed and grows by all that lies below. -/
theorem Closed.mem_foldl_iff {roots : List Edge} (hseen : store.Closed seen) (h : store.Founded)
    (hroots : ∀ r ∈ roots, store.Has r) :
    j ∈ roots.foldl (fun seen root => store.visitWithin root.index root.index seen) seen ↔
      j ∈ seen ∨ ∃ r ∈ roots, store.Descends r j := by
  induction roots generalizing seen with
  | nil => simp
  | cons r rest ih =>
    obtain ⟨hr, hrest⟩ := List.forall_mem_cons.1 hroots
    obtain ⟨hmem, hclosed⟩ := hseen.visitWithin h hr
    rw [List.foldl_cons, ih hclosed hrest, List.exists_mem_cons_iff, ← or_assoc]
    refine or_congr_left ⟨descends_of_mem_visitWithin, ?_⟩
    rintro (hbefore | hd)
    · exact mem_visitWithin_of_mem hbefore _ _
    · exact hclosed.mem_of_descends h hr hmem hd

/-- What is reached from some edges is the terminal and all that lies below them. -/
theorem Founded.mem_reachable_iff (h : store.Founded) {roots : List Edge}
    (hroots : ∀ r ∈ roots, store.Has r) :
    j ∈ store.reachable roots ↔ j = 1 ∨ ∃ r ∈ roots, store.Descends r j := by
  rw [reachable, h.closed_first.mem_foldl_iff h hroots, mem_first_iff]

theorem Founded.mem_support_of_descends (h : store.Founded) (he : store.Has e)
    (hd : store.Descends e j) (hj : j ≠ 1) : (store.node j).var ∈ store.support e := by
  have hmem : j ∈ store.reachable [e] := (h.mem_reachable_iff (by simpa using he)).2
    (.inr ⟨e, List.mem_singleton_self e, hd⟩)
  exact mem_support_iff.2
    ⟨j, List.mem_filter.2 ⟨Std.TreeSet.mem_toList.2 hmem, decide_eq_true hj⟩, rfl⟩

theorem Founded.mem_support_of_mem_low (h : store.Founded) (he : store.Has e)
    (hv : v ∈ store.support (store.low e)) : v ∈ store.support e := by
  obtain ⟨j, hj, rfl⟩ := mem_support_iff.1 hv
  obtain ⟨hne, hd⟩ := descends_of_mem_innerPositions hj
  exact h.mem_support_of_descends he (.low hd) hne

theorem Founded.mem_support_of_mem_high (h : store.Founded) (he : store.Has e)
    (hv : v ∈ store.support (store.high e)) : v ∈ store.support e := by
  obtain ⟨j, hj, rfl⟩ := mem_support_iff.1 hv
  obtain ⟨hne, hd⟩ := descends_of_mem_innerPositions hj
  exact h.mem_support_of_descends he (.high hd) hne

/-- Valuations that agree on the support of a diagram give it the same value. -/
theorem Founded.eval_congr (h : store.Founded) (he : store.Has e) {a b : Valuation}
    (hab : ∀ v ∈ store.support e, a v = b v) : store.eval e a = store.eval e b := by
  have htested : ∀ j, store.Descends e j → j ≠ 1 →
      a (store.node j).var = b (store.node j).var := fun j hd hj =>
    hab _ (h.mem_support_of_descends he hd hj)
  clear hab
  revert htested
  refine h.edge_induction (motive := fun e => (∀ j, store.Descends e j → j ≠ 1 →
    a (store.node j).var = b (store.node j).var) → store.eval e a = store.eval e b) ?_ ?_ e he
  · intro e hi _
    obtain rfl | rfl := Edge.eq_of_index_eq_one hi <;> simp
  · intro e he hi ihlow ihhigh htested
    rw [h.eval_inner he hi, h.eval_inner he hi, htested _ (.refl e) hi,
      ihlow fun j hd => htested j (.low hd), ihhigh fun j hd => htested j (.high hd)]

/-- A diagram does not depend on variables outside its support. -/
theorem Founded.ignores_of_not_mem_support (h : store.Founded) (he : store.Has e)
    (hv : v ∉ store.support e) : store.Ignores e v := fun a value =>
  h.eval_congr he fun _ hw => Valuation.update_of_ne a (ne_of_mem_of_not_mem hw hv) value

/-- In a reduced store the support of a diagram are the variables that it depends on. -/
theorem Reduced.mem_support_iff_not_ignores (h : store.Reduced) (he : store.Has e) :
    v ∈ store.support e ↔ ¬ store.Ignores e v :=
  ⟨fun hv hig => h.not_mem_support he hig hv,
    fun hig => by_contra fun hv => hig (h.founded.ignores_of_not_mem_support he hv)⟩

end Visits

section Growth

theorem Founded.node_eq_of_descends (h : store.Founded) (hle : store ≤ later) (he : store.Has e)
    (hd : store.Descends e j) : later.node j = store.node j := by
  induction hd with
  | refl e => exact he.node_eq hle
  | low _ ih => exact ih (h.has_low he)
  | high _ ih => exact ih (h.has_high he)

/-- A growing store visits the same positions below an edge. -/
theorem Founded.visitWithin_eq (h : store.Founded) (hle : store ≤ later) (he : store.Has e)
    (depth : Nat) (seen : Std.TreeSet Nat) :
    later.visitWithin depth e.index seen = store.visitWithin depth e.index seen := by
  induction depth generalizing e seen with
  | zero => rfl
  | succ depth ih =>
    rw [visitWithin, visitWithin, he.node_eq hle]
    dsimp only
    rw [← low_index, ← high_index]
    simp only [ih (h.has_low he), ih (h.has_high he)]

/-- A growing store keeps the variables of a diagram. -/
theorem Founded.mem_support_iff_of_le (h : store.Founded) (hle : store ≤ later) (he : store.Has e) :
    v ∈ later.support e ↔ v ∈ store.support e := by
  have hpositions : later.innerPositions [e] = store.innerPositions [e] := by
    unfold innerPositions reachable
    simp only [List.foldl_cons, List.foldl_nil, h.visitWithin_eq hle he]
  rw [mem_support_iff, mem_support_iff, hpositions]
  refine exists_congr fun j => and_congr_right fun hj => ?_
  rw [h.node_eq_of_descends hle he (descends_of_mem_innerPositions hj).2]

end Growth

end PlanningGame.Store
