import Mathlib
import PlanningGame.Proofs.ComputedTable
import PlanningGame.Proofs.Diagram.Operation

/-!
# Meaning of if-then-else and the connectives

The standard form of a triple has the same function up to a mark and no larger positions, so one
step of the recursion goes to smaller positions and the bound on the depth is never reached. A step
looks the standard triple up, or else works out its two parts and joins their answers. By induction
on the bound the answer stands for the if-then-else of the three functions.
-/
namespace PlanningGame

namespace Store

variable {store later : Store} {triple : Triple}

/-- What the standard form of a triple has to satisfy. A settled operation has its answer; any other
is that of a triple that is no larger and has a proper condition, up to a mark. -/
def Standardizes (store : Store) (triple : Triple) : Triple.Standard → Prop
  | .settled e => store.Computes triple e
  | .reduced t mark =>
    store.HasTriple t ∧ t.condition.index ≠ 1 ∧ t.weight ≤ triple.weight ∧
      ∀ a, store.evalTriple triple a = (store.evalTriple t a != mark)

/-- The positive branch, which is constant if it is the condition or its negation. -/
def plainPositive (f g : Edge) : Edge :=
  if g = f then .one else if g = -f then .zero else g

/-- The negative branch, which is constant if it is the condition or its negation. -/
def plainNegative (f h : Edge) : Edge :=
  if h = f then .zero else if h = -f then .one else h

theorem standard_eq (f g h : Edge) :
    (Triple.mk f g h).standard =
      if f = .one then .settled g
      else if f = .zero then .settled h
      else
        let g := plainPositive f g
        let h := plainNegative f h
        if g = h then .settled g
        else if g = .one ∧ h = .zero then .settled f
        else if g = .zero ∧ h = .one then .settled (-f)
        else
          let triple : Triple := if f.negated then ⟨-f, h, g⟩ else ⟨f, g, h⟩
          if triple.positive.negated then
            .reduced ⟨triple.condition, -triple.positive, -triple.negative⟩ true
          else .reduced triple false := rfl

theorem Founded.has_plainPositive (hr : store.Founded) {f g : Edge} (hg : store.Has g) :
    store.Has (plainPositive f g) := by
  unfold plainPositive
  split_ifs
  · exact hr.has_one
  · exact hr.has_zero
  · exact hg

theorem Founded.has_plainNegative (hr : store.Founded) {f h : Edge} (hh : store.Has h) :
    store.Has (plainNegative f h) := by
  unfold plainNegative
  split_ifs
  · exact hr.has_zero
  · exact hr.has_one
  · exact hh

theorem plainPositive_index_le {f g : Edge} (hg : store.Has g) :
    (plainPositive f g).index ≤ g.index := by
  have := hg.1
  unfold plainPositive
  split_ifs <;> simp <;> omega

theorem plainNegative_index_le {f h : Edge} (hh : store.Has h) :
    (plainNegative f h).index ≤ h.index := by
  have := hh.1
  unfold plainNegative
  split_ifs <;> simp <;> omega

/-- Making the branches constant does not change the function. -/
theorem Founded.evalTriple_plain (hr : store.Founded) {f g h : Edge} (hf : store.Has f)
    (a : Valuation) :
    store.evalTriple ⟨f, plainPositive f g, plainNegative f h⟩ a =
      store.evalTriple ⟨f, g, h⟩ a := by
  unfold evalTriple plainPositive plainNegative
  dsimp only
  split
  · next hfa => split_ifs <;> simp_all [hr.eval_neg hf]
  · next hfa => split_ifs <;> simp_all [hr.eval_neg hf]

/-- Exchanging the branches of a negated condition does not change the function. -/
theorem Founded.evalTriple_exchange (hr : store.Founded) {f g h : Edge} (hf : store.Has f)
    (a : Valuation) : store.evalTriple ⟨-f, h, g⟩ a = store.evalTriple ⟨f, g, h⟩ a := by
  unfold evalTriple
  dsimp only
  rw [hr.eval_neg hf]
  cases store.eval f a <;> simp

theorem Founded.evalTriple_negate (hr : store.Founded) {f g h : Edge} (hg : store.Has g)
    (hh : store.Has h) (a : Valuation) :
    store.evalTriple ⟨f, -g, -h⟩ a = !store.evalTriple ⟨f, g, h⟩ a := by
  unfold evalTriple
  dsimp only
  rw [hr.eval_neg hg, hr.eval_neg hh]
  split <;> rfl

theorem Founded.standardizes (hr : store.Founded) (ht : store.HasTriple triple) :
    store.Standardizes triple triple.standard := by
  obtain ⟨f, g, h⟩ := triple
  obtain ⟨hf, hg, hh⟩ := ht
  dsimp only at hf hg hh
  rw [standard_eq]
  have ht : store.HasTriple ⟨f, g, h⟩ := ⟨hf, hg, hh⟩
  by_cases hone : f = .one
  · rw [if_pos hone]
    exact ⟨ht, hg, fun a => by simp [evalTriple, hone]⟩
  rw [if_neg hone]
  by_cases hzero : f = .zero
  · rw [if_pos hzero]
    exact ⟨ht, hh, fun a => by simp [evalTriple, hzero]⟩
  rw [if_neg hzero]
  have hplain := hr.evalTriple_plain (g := g) (h := h) hf
  have hg' := hr.has_plainPositive (f := f) hg
  have hh' := hr.has_plainNegative (f := f) hh
  have hgle := plainPositive_index_le (f := f) hg
  have hhle := plainNegative_index_le (f := f) hh
  have hinner : f.index ≠ 1 := Edge.index_ne_one hone hzero
  generalize plainPositive f g = g' at *
  generalize plainNegative f h = h' at *
  dsimp only
  split_ifs with hsame hself hneg hmark
  · exact ⟨ht, hg', fun a => by rw [← hplain]; simp [evalTriple, hsame]⟩
  · exact ⟨ht, hf, fun a => by rw [← hplain]; simp [evalTriple, hself]⟩
  · exact ⟨ht, hf, fun a => by rw [← hplain, hr.eval_neg hf]; simp [evalTriple, hneg]⟩
  · exact ⟨⟨hf, hh', hg'⟩, hinner, by simp [Triple.weight]; omega, fun a => by
      rw [← hplain, hr.evalTriple_negate hh' hg', hr.evalTriple_exchange hf]; simp⟩
  · exact ⟨⟨hf, hh', hg'⟩, hinner, by simp [Triple.weight]; omega, fun a => by
      rw [← hplain, hr.evalTriple_exchange hf]; simp⟩
  · exact ⟨⟨hf, hg', hh'⟩, hinner, by simp [Triple.weight]; omega, fun a => by
      rw [← hplain, hr.evalTriple_negate hg' hh']; simp⟩
  · exact ⟨⟨hf, hg', hh'⟩, hinner, by simp [Triple.weight]; omega, fun a => by
      rw [← hplain]; simp⟩

/-- The three diagrams of a triple are below the variable. -/
structure TripleBelow (store : Store) (v : Var) (triple : Triple) : Prop where
  condition : store.Below v triple.condition
  positive : store.Below v triple.positive
  negative : store.Below v triple.negative

theorem TripleBelow.mono {v : Var} (h : store.TripleBelow v triple) (ht : store.HasTriple triple)
    (hle : store ≤ later) : later.TripleBelow v triple :=
  ⟨(ht.condition.below_iff hle).2 h.condition, (ht.positive.below_iff hle).2 h.positive,
    (ht.negative.below_iff hle).2 h.negative⟩

/-- The answer for a triple of diagrams below a variable is below it, too. -/
theorem Computes.below (hr : store.Reduced) {e : Edge} {v : Var} (h : store.Computes triple e)
    (hbelow : store.TripleBelow v triple) : store.Below v e := by
  refine hr.below_of_ignores h.result fun w hw a value => ?_
  rw [h.eval_eq, h.eval_eq, evalTriple, evalTriple,
    hr.ignores_of_below h.operands.condition hbelow.condition hw,
    hr.ignores_of_below h.operands.positive hbelow.positive hw,
    hr.ignores_of_below h.operands.negative hbelow.negative hw]

theorem topVar_le (store : Store) (triple : Triple) :
    store.topVar triple ≤ store.level triple.condition ∧
      store.topVar triple ≤ store.level triple.positive ∧
      store.topVar triple ≤ store.level triple.negative := by
  unfold topVar
  have h := Std.min_le_left (a := min (store.level triple.condition) (store.level triple.positive))
    (b := store.level triple.negative)
  exact ⟨UInt32.le_trans h Std.min_le_left, UInt32.le_trans h Std.min_le_right, Std.min_le_right⟩

theorem topVar_eq (store : Store) (triple : Triple) :
    store.topVar triple = store.level triple.condition ∨
      store.topVar triple = store.level triple.positive ∨
      store.topVar triple = store.level triple.negative := by
  unfold topVar
  obtain h | h := Std.min_eq_or (a := min (store.level triple.condition)
    (store.level triple.positive)) (b := store.level triple.negative)
  · rw [h, ← or_assoc]
    exact .inl Std.min_eq_or
  · exact .inr (.inr h)

theorem le_lastLevel (v : Var) : v ≤ lastLevel := by
  have := v.toNat_lt
  rw [UInt32.le_iff_toNat_le]
  simp only [lastLevel]
  change _ ≤ 4294967295
  omega

/-- An edge whose level is the topmost variable and lies above the condition is inner. -/
theorem index_ne_one_of_topVar_eq {e : Edge} (htop : store.topVar triple = store.level e)
    (hne : store.topVar triple ≠ store.level triple.condition) : e.index ≠ 1 := by
  intro hi
  rw [level_of_isTerminal hi] at htop
  refine hne (UInt32.le_antisymm (topVar_le store triple).1 ?_)
  rw [htop]
  exact le_lastLevel _

/-- All three cofactors of a triple with a proper condition exist by its topmost variable, and
together they are smaller. -/
theorem Founded.cofactors_triple (hr : store.Founded) (ht : store.HasTriple triple)
    (hcond : triple.condition.index ≠ 1) :
    ∃ f₀ f₁ g₀ g₁ h₀ h₁ : Edge,
      store.cofactors triple.condition (store.topVar triple) = .ok (f₀, f₁) ∧
      store.cofactors triple.positive (store.topVar triple) = .ok (g₀, g₁) ∧
      store.cofactors triple.negative (store.topVar triple) = .ok (h₀, h₁) ∧
      store.Splits (store.topVar triple) triple.condition f₀ f₁ ∧
      store.Splits (store.topVar triple) triple.positive g₀ g₁ ∧
      store.Splits (store.topVar triple) triple.negative h₀ h₁ ∧
      f₀.index + g₀.index + h₀.index < triple.weight ∧
      f₁.index + g₁.index + h₁.index < triple.weight := by
  obtain ⟨hcle, hple, hnle⟩ := topVar_le store triple
  have hv : store.topVar triple ≠ 0 := by
    obtain h | h | h := topVar_eq store triple <;> rw [h]
    · exact hr.level_ne_zero ht.condition
    · exact hr.level_ne_zero ht.positive
    · exact hr.level_ne_zero ht.negative
  obtain ⟨f₀, f₁, hf, sf, df⟩ := hr.cofactors_eq ht.condition hv hcle
  obtain ⟨g₀, g₁, hg, sg, dg⟩ := hr.cofactors_eq ht.positive hv hple
  obtain ⟨h₀, h₁, hh, sh, dh⟩ := hr.cofactors_eq ht.negative hv hnle
  refine ⟨f₀, f₁, g₀, g₁, h₀, h₁, hf, hg, hh, sf, sg, sh, ?_⟩
  have := sf.low_le
  have := sf.high_le
  have := sg.low_le
  have := sg.high_le
  have := sh.low_le
  have := sh.high_le
  unfold Triple.weight
  by_cases htop : store.topVar triple = store.level triple.condition
  · have := df hcond htop
    omega
  · obtain h | h | h := topVar_eq store triple
    · exact absurd h htop
    · have := dg (index_ne_one_of_topVar_eq h htop) h
      omega
    · have := dh (index_ne_one_of_topVar_eq h htop) h
      omega

section Parts

variable {earlier : Store} {t lower upper : Triple} {v : Var} {low high e : Edge}

/-- The second and the third triple are the branches of the first, which has a proper condition, by
its topmost variable. -/
structure Parts (store : Store) (t lower upper : Triple) : Prop where
  operands : store.HasTriple t
  inner : t.condition.index ≠ 1
  condition : store.cofactors t.condition (store.topVar t) = .ok (lower.condition, upper.condition)
  positive : store.cofactors t.positive (store.topVar t) = .ok (lower.positive, upper.positive)
  negative : store.cofactors t.negative (store.topVar t) = .ok (lower.negative, upper.negative)

theorem Has.level_eq (h : earlier.Has e) (hle : earlier ≤ later) :
    later.level e = earlier.level e := by
  rw [level, level, h.node_eq hle]

theorem HasTriple.topVar_eq (h : earlier.HasTriple t) (hle : earlier ≤ later) :
    later.topVar t = earlier.topVar t := by
  rw [topVar, topVar, h.condition.level_eq hle, h.positive.level_eq hle, h.negative.level_eq hle]

theorem Has.cofactors_eq (h : earlier.Has e) (hle : earlier ≤ later) :
    later.cofactors e v = earlier.cofactors e v := by
  rw [cofactors, cofactors, h.level_eq hle, h.low_eq hle, h.high_eq hle]

theorem Parts.mono (h : earlier.Parts t lower upper) (hle : earlier ≤ later) :
    later.Parts t lower upper := by
  have htop := h.operands.topVar_eq hle
  refine ⟨h.operands.mono hle, h.inner, ?_, ?_, ?_⟩
  · rw [htop, h.operands.condition.cofactors_eq hle, h.condition]
  · rw [htop, h.operands.positive.cofactors_eq hle, h.positive]
  · rw [htop, h.operands.negative.cofactors_eq hle, h.negative]

theorem Parts.unique {lower' upper' : Triple} (h : store.Parts t lower upper)
    (h' : store.Parts t lower' upper') : lower = lower' ∧ upper = upper' := by
  have hc := h.condition.symm.trans h'.condition
  have hp := h.positive.symm.trans h'.positive
  have hn := h.negative.symm.trans h'.negative
  cases lower
  cases upper
  cases lower'
  cases upper'
  simp_all

theorem Parts.topVar_ne_zero (h : store.Parts t lower upper) : store.topVar t ≠ 0 := by
  intro hzero
  have hcondition := h.condition
  rw [hzero] at hcondition
  simp [Store.cofactors] at hcondition

/-- A triple with a proper condition has parts. -/
theorem Founded.exists_parts (hf : store.Founded) (ht : store.HasTriple t)
    (hcond : t.condition.index ≠ 1) : ∃ lower upper, store.Parts t lower upper := by
  obtain ⟨f₀, f₁, g₀, g₁, h₀, h₁, hc, hp, hn, -⟩ := hf.cofactors_triple ht hcond
  exact ⟨⟨f₀, g₀, h₀⟩, ⟨f₁, g₁, h₁⟩, ht, hcond, hc, hp, hn⟩

/-- What is known of the parts of a triple with a proper condition. -/
structure Halves (store : Store) (t lower upper : Triple) : Prop where
  has_lower : store.HasTriple lower
  has_upper : store.HasTriple upper
  lower_lt : lower.weight < t.weight
  upper_lt : upper.weight < t.weight
  lower_below : store.Ordered → store.TripleBelow (store.topVar t) lower
  upper_below : store.Ordered → store.TripleBelow (store.topVar t) upper
  eval_eq : ∀ a, store.evalTriple t a =
    if a (store.topVar t) then store.evalTriple upper a else store.evalTriple lower a

theorem Parts.halves (hf : store.Founded) (h : store.Parts t lower upper) :
    store.Halves t lower upper := by
  obtain ⟨f₀, f₁, g₀, g₁, h₀, h₁, hc, hp, hn, sf, sg, sh, hlow, hhigh⟩ :=
    hf.cofactors_triple h.operands h.inner
  have hparts : store.Parts t ⟨f₀, g₀, h₀⟩ ⟨f₁, g₁, h₁⟩ := ⟨h.operands, h.inner, hc, hp, hn⟩
  obtain ⟨rfl, rfl⟩ := h.unique hparts
  refine ⟨⟨sf.has_low, sg.has_low, sh.has_low⟩, ⟨sf.has_high, sg.has_high, sh.has_high⟩, hlow,
    hhigh, fun ho => ⟨sf.low_below ho, sg.low_below ho, sh.low_below ho⟩,
    fun ho => ⟨sf.high_below ho, sg.high_below ho, sh.high_below ho⟩, fun a => ?_⟩
  simp only [evalTriple, sf.eval_eq, sg.eval_eq, sh.eval_eq]
  split <;> rfl

theorem Parts.computes (hf : store.Founded) (h : store.Parts t lower upper)
    (hlow : store.Computes lower low) (hhigh : store.Computes upper high)
    (he : store.Denotes e fun a =>
      if a (store.topVar t) then store.eval high a = true else store.eval low a = true) :
    store.Computes t e := by
  refine ⟨h.operands, he.has, fun a => ?_⟩
  rw [(h.halves hf).eval_eq, ← hlow.eval_eq, ← hhigh.eval_eq, Bool.eq_iff_iff, he.eval_iff]
  split <;> rfl

/-- The store after a look-up of a triple, which is counted. -/
def lookedUp (store : Store) (t : Triple) : Store :=
  { store with computed := (store.computed.get Triple.key t).2 }

/-- The store after a result has been kept. -/
def remembering (store : Store) (t : Triple) (e : Edge) : Store :=
  { store with computed := store.computed.insert Triple.key t e }

@[simp] theorem lookedUp_nodes (store : Store) (t : Triple) :
    (store.lookedUp t).nodes = store.nodes := rfl

@[simp] theorem lookedUp_slots (store : Store) (t : Triple) :
    (store.lookedUp t).computed.slots = store.computed.slots := ComputedTable.slots_get

@[simp] theorem remembering_nodes (store : Store) (t : Triple) (e : Edge) :
    (store.remembering t e).nodes = store.nodes := rfl

section Tables

open Soundness

variable {sound : Store → Prop} [Soundness sound]

theorem le_lookedUp (store : Store) (t : Triple) : store ≤ store.lookedUp t :=
  le_of_nodes_eq (store.lookedUp_nodes t)

theorem sound_lookedUp (hs : sound store) (t : Triple) : sound (store.lookedUp t) :=
  sound_of_nodes_eq hs rfl fun i t' e hi =>
    (regular hs).computed i t' e (store.lookedUp_slots t ▸ hi)

theorem sound_remembering (hs : sound store) (he : store.Computes t e) :
    sound (store.remembering t e) := by
  refine sound_of_nodes_eq hs rfl fun i t' f hi => ?_
  obtain ⟨rfl, rfl⟩ | hi := ComputedTable.slot_of_insert hi
  · exact he
  · exact (regular hs).computed i t' f hi

theorem Regular.computes_of_find? (h : store.Regular)
    (hfind : store.computed.find? Triple.key t = some e) : store.Computes t e := by
  obtain ⟨i, hi⟩ := ComputedTable.exists_slot_of_find? hfind
  exact h.computed i t e hi

end Tables

end Parts

end Store

namespace Diagram

open Store.Soundness

variable {store : Store} {triple : Triple} {sound : Store → Prop}

section Recursion

variable {t lower upper : Triple} {v : Var} {low high e : Edge}

theorem run_known? (store : Store) (t : Triple) :
    (known? t).run.run store = (.ok (store.computed.find? Triple.key t), store.lookedUp t) := rfl

theorem run_remember (store : Store) (t : Triple) (e : Edge) :
    (remember t e).run.run store = (.ok (), store.remembering t e) := rfl

/-- Work the two parts of a standard triple out, join the answers, and keep the result. -/
def combine (depth : Nat) (v : Var) (t lower upper : Triple) : DiagramM Edge := do
  let low ← iteWithin depth lower
  let high ← iteWithin depth upper
  let e ← branch v low high
  remember t e
  return e

/-- The answer for a standard triple, looked up or worked out. -/
def resolve (depth : Nat) (t : Triple) : DiagramM Edge := do
  match ← known? t with
  | some e => return e
  | none =>
    let v := (← current).topVar t
    let (f₀, f₁) ← cofactors t.condition v
    let (g₀, g₁) ← cofactors t.positive v
    let (h₀, h₁) ← cofactors t.negative v
    combine depth v t ⟨f₀, g₀, h₀⟩ ⟨f₁, g₁, h₁⟩

theorem iteWithin_of_reduced {mark : Bool} (depth : Nat)
    (hstd : triple.standard = .reduced t mark) :
    iteWithin (depth + 1) triple = (·.complementIf mark) <$> resolve depth t := by
  rw [iteWithin, hstd]
  unfold resolve combine
  simp only [map_bind]
  congr 1
  funext found
  cases found <;> simp

theorem resolve_of_find? (depth : Nat) (hfind : store.computed.find? Triple.key t = some e) :
    (resolve depth t).run.run store = (.ok e, store.lookedUp t) := by
  have hrun := run_known? store t
  rw [hfind] at hrun
  exact run_bind_of_ok hrun _

theorem run_current (store : Store) : (current).run.run store = (.ok store, store) :=
  rfl

theorem run_cofactors {edges : Edge × Edge} (h : store.cofactors e v = .ok edges) :
    (cofactors e v).run.run store = (.ok edges, store) := by
  unfold cofactors
  rw [run_bind_of_ok (run_current store), h]
  rfl

theorem resolve_of_miss (depth : Nat) (hfind : store.computed.find? Triple.key t = none)
    (hparts : store.Parts t lower upper) :
    (resolve depth t).run.run store =
      (combine depth (store.topVar t) t lower upper).run.run (store.lookedUp t) := by
  have hrun := run_known? store t
  rw [hfind] at hrun
  have hparts' := hparts.mono (store.le_lookedUp t)
  have htop := hparts.operands.topVar_eq (store.le_lookedUp t)
  rw [resolve, run_bind_of_ok hrun]
  dsimp only
  rw [run_bind_of_ok (run_current _), run_bind_of_ok (run_cofactors hparts'.condition),
    run_bind_of_ok (run_cofactors hparts'.positive),
    run_bind_of_ok (run_cofactors hparts'.negative), htop]

variable [Store.Soundness sound]

theorem ensures_remember (hs : sound store) (he : store.Computes t e) :
    EnsuresIn sound (remember t e) store fun _ _ => True :=
  ⟨Store.sound_remembering hs he, Store.le_of_nodes_eq (store.remembering_nodes t e), trivial⟩

theorem ensures_combine {depth : Nat} (hs : sound store) (hparts : store.Parts t lower upper)
    (ih : ∀ {store : Store} {triple : Triple}, sound store → store.HasTriple triple →
      triple.weight < depth →
      EnsuresIn sound (iteWithin depth triple) store fun e later => later.Computes triple e)
    (hd : t.weight ≤ depth) :
    EnsuresIn sound (combine depth (store.topVar t) t lower upper) store
      fun e later => later.Computes t e := by
  have hhalves := hparts.halves (founded hs)
  have hlt := hhalves.lower_lt
  have hut := hhalves.upper_lt
  unfold combine
  apply (ih hs hhalves.has_lower (by omega)).bind
  intro low later₁ hs₁ hle₁ hlow
  apply (ih hs₁ (hhalves.has_upper.mono hle₁) (by omega)).bind
  intro high later₂ hs₂ hle₂ hhigh
  have hlow₂ := hlow.mono (founded hs₁) hle₂
  have hle := hle₁.trans hle₂
  have hbelow : strict sound →
      later₂.Below (store.topVar t) low ∧ later₂.Below (store.topVar t) high := by
    intro hstrict
    have ho := ordered hs hstrict
    have hr := reduced_of_strict hs₂ hstrict
    exact ⟨hlow₂.below hr ((hhalves.lower_below ho).mono hhalves.has_lower hle),
      hhigh.below hr ((hhalves.upper_below ho).mono hhalves.has_upper hle)⟩
  apply (ensures_branch hs₂ hparts.topVar_ne_zero hlow₂.result.denotes hhigh.result.denotes
    hbelow).bind
  intro e later₃ hs₃ hle₃ he
  have hcomputes : later₃.Computes t e := by
    refine (hparts.mono (hle.trans hle₃)).computes (founded hs₃) (hlow₂.mono (founded hs₂) hle₃)
      (hhigh.mono (founded hs₂) hle₃) (he.congr fun a => ?_)
    rw [hparts.operands.topVar_eq (hle.trans hle₃), (founded hs₂).eval_mono hle₃ hlow₂.result,
      (founded hs₂).eval_mono hle₃ hhigh.result]
  apply (ensures_remember hs₃ hcomputes).bind
  intro _ later₄ hs₄ hle₄ _
  exact ensures_pure hs₄ (hcomputes.mono (founded hs₃) hle₄)

theorem ensures_resolve {depth : Nat} (hs : sound store) (ht : store.HasTriple t)
    (hcond : t.condition.index ≠ 1)
    (ih : ∀ {store : Store} {triple : Triple}, sound store → store.HasTriple triple →
      triple.weight < depth →
      EnsuresIn sound (iteWithin depth triple) store fun e later => later.Computes triple e)
    (hd : t.weight ≤ depth) :
    EnsuresIn sound (resolve depth t) store fun e later => later.Computes t e := by
  have hlook := Store.sound_lookedUp hs t
  have hle := store.le_lookedUp t
  unfold EnsuresIn
  cases hfind : store.computed.find? Triple.key t with
  | some e =>
    rw [resolve_of_find? depth hfind]
    exact ⟨hlook, hle, ((regular hs).computes_of_find? hfind).mono (founded hs) hle⟩
  | none =>
    obtain ⟨lower, upper, hparts⟩ := (founded hs).exists_parts ht hcond
    have hwork := ensures_combine hlook (hparts.mono hle) ih hd
    rw [ht.topVar_eq hle] at hwork
    rw [resolve_of_miss depth hfind hparts]
    exact ⟨hwork.1, hle.trans hwork.2.1, hwork.2.2⟩

/-- The induction is on the bound of the depth, which stays above the sum of the positions. -/
theorem ensures_iteWithin (depth : Nat) (hs : sound store) (ht : store.HasTriple triple)
    (hd : triple.weight < depth) :
    EnsuresIn sound (iteWithin depth triple) store fun e later => later.Computes triple e := by
  induction depth generalizing store triple with
  | zero => omega
  | succ depth ih =>
    have hkey := (founded hs).standardizes ht
    cases hstd : triple.standard with
    | settled e =>
      rw [hstd] at hkey
      rw [iteWithin, hstd]
      exact ensures_pure hs hkey
    | reduced t mark =>
      rw [hstd] at hkey
      obtain ⟨htt, hcond, hweight, hvalue⟩ := hkey
      rw [iteWithin_of_reduced depth hstd]
      refine EnsuresIn.map ((ensures_resolve hs htt hcond ih (by omega)).weaken
        fun e later hs' hle he => ?_)
      -- an answer for the standard form is one for the triple itself
      refine ⟨ht.mono hle, (Store.has_complementIf _).2 he.result, fun a => ?_⟩
      rw [(founded hs').eval_complementIf he.result, he.eval_eq,
        htt.evalTriple_mono (founded hs) hle, ht.evalTriple_mono (founded hs) hle, hvalue]

end Recursion

variable [Store.Soundness sound]

section Connectives

variable {f g h : Edge} {P Q R : Valuation → Prop}

theorem ensures_ite (hs : sound store) (hf : store.Denotes f P) (hg : store.Denotes g Q)
    (hh : store.Denotes h R) :
    EnsuresIn sound (ite f g h) store
      fun e later => later.Denotes e fun a => (P a → Q a) ∧ (¬ P a → R a) := by
  refine (ensures_iteWithin _ hs ⟨hf.has, hg.has, hh.has⟩ (Nat.lt_succ_self _)).weaken
    fun e later _ hle he => ⟨he.result, fun a => ?_⟩
  have ht : store.HasTriple ⟨f, g, h⟩ := ⟨hf.has, hg.has, hh.has⟩
  rw [he.eval_eq, ht.evalTriple_mono (founded hs) hle, Store.evalTriple, ← hf.eval_iff a,
    ← hg.eval_iff a, ← hh.eval_iff a]
  cases store.eval f a <;> simp

theorem ensures_conj (hs : sound store) (hf : store.Denotes f P) (hg : store.Denotes g Q) :
    EnsuresIn sound (conj f g) store fun e later => later.Denotes e fun a => P a ∧ Q a :=
  (ensures_ite hs hf hg (founded hs).denotes_zero).weaken
    fun _ _ _ _ he => he.congr fun a => by tauto

theorem ensures_disj (hs : sound store) (hf : store.Denotes f P) (hg : store.Denotes g Q) :
    EnsuresIn sound (disj f g) store fun e later => later.Denotes e fun a => P a ∨ Q a :=
  (ensures_ite hs hf (founded hs).denotes_one hg).weaken
    fun _ _ _ _ he => he.congr fun a => by tauto

theorem ensures_differ (hs : sound store) (hf : store.Denotes f P) (hg : store.Denotes g Q) :
    EnsuresIn sound (differ f g) store fun e later => later.Denotes e fun a => ¬ (P a ↔ Q a) :=
  (ensures_ite hs hf (hg.neg (founded hs)) hg).weaken
    fun _ _ _ _ he => he.congr fun a => by tauto

theorem ensures_agree (hs : sound store) (hf : store.Denotes f P) (hg : store.Denotes g Q) :
    EnsuresIn sound (agree f g) store fun e later => later.Denotes e fun a => P a ↔ Q a :=
  (ensures_ite hs hf hg (hg.neg (founded hs))).weaken
    fun _ _ _ _ he => he.congr fun a => by tauto

theorem ensures_imply (hs : sound store) (hf : store.Denotes f P) (hg : store.Denotes g Q) :
    EnsuresIn sound (imply f g) store fun e later => later.Denotes e fun a => P a → Q a :=
  (ensures_ite hs hf hg (founded hs).denotes_one).weaken
    fun _ _ _ _ he => he.congr fun a => by tauto

/-- A conjunction that ends early is false, and so are all longer ones. -/
theorem ensures_conjFrom (hs : sound store) {edges : List Edge} (hf : store.Denotes f P)
    (hedges : ∀ e ∈ edges, store.Has e) :
    EnsuresIn sound (conjFrom f edges) store fun e later =>
      later.Denotes e fun a => P a ∧ ∀ g ∈ edges, store.eval g a = true := by
  induction edges generalizing store f P with
  | nil => exact ensures_pure hs (hf.congr fun a => by simp)
  | cons g rest ih =>
    rw [conjFrom]
    have hg := hedges g List.mem_cons_self
    have hrest : ∀ e ∈ rest, store.Has e := fun e he => hedges e (List.mem_cons_of_mem _ he)
    apply (ensures_conj hs hf hg.denotes).bind
    intro e later hs' hle he
    split
    · next hzero =>
        subst hzero
        refine ensures_pure hs' (he.congr fun a => ?_)
        have := he.eval_iff a
        simp only [Store.eval_zero, Bool.false_eq_true, false_iff] at this
        simp only [List.forall_mem_cons]
        tauto
    · refine (ih hs' he fun e he => (hrest e he).mono hle).weaken fun r last _ _ hr =>
        hr.congr fun a => ?_
      have key : (∀ g ∈ rest, later.eval g a = true) ↔ ∀ g ∈ rest, store.eval g a = true :=
        forall₂_congr fun g hg => by rw [(founded hs).eval_mono hle (hrest g hg)]
      rw [key, List.forall_mem_cons, and_assoc]

theorem ensures_conjAll (hs : sound store) {edges : List Edge} (hedges : ∀ e ∈ edges, store.Has e) :
    EnsuresIn sound (conjAll edges) store fun e later =>
      later.Denotes e fun a => ∀ g ∈ edges, store.eval g a = true :=
  (ensures_conjFrom hs (founded hs).denotes_one hedges).weaken
    fun _ _ _ _ he => he.congr fun a => by rw [true_and]

/-- A disjunction that ends early is true, and so are all longer ones. -/
theorem ensures_disjFrom (hs : sound store) {edges : List Edge} (hf : store.Denotes f P)
    (hedges : ∀ e ∈ edges, store.Has e) :
    EnsuresIn sound (disjFrom f edges) store fun e later =>
      later.Denotes e fun a => P a ∨ ∃ g ∈ edges, store.eval g a = true := by
  induction edges generalizing store f P with
  | nil => exact ensures_pure hs (hf.congr fun a => by simp)
  | cons g rest ih =>
    rw [disjFrom]
    have hg := hedges g List.mem_cons_self
    have hrest : ∀ e ∈ rest, store.Has e := fun e he => hedges e (List.mem_cons_of_mem _ he)
    apply (ensures_disj hs hf hg.denotes).bind
    intro e later hs' hle he
    split
    · next hone =>
        subst hone
        refine ensures_pure hs' (he.congr fun a => ?_)
        have := he.eval_iff a
        simp only [Store.eval_one, true_iff] at this
        simp only [List.exists_mem_cons_iff]
        tauto
    · refine (ih hs' he fun e he => (hrest e he).mono hle).weaken fun r last _ _ hr =>
        hr.congr fun a => ?_
      have key : (∃ g ∈ rest, later.eval g a = true) ↔ ∃ g ∈ rest, store.eval g a = true :=
        exists_congr fun g => and_congr_right fun hg => by
          rw [(founded hs).eval_mono hle (hrest g hg)]
      rw [key, List.exists_mem_cons_iff, or_assoc]

theorem ensures_disjAll (hs : sound store) {edges : List Edge} (hedges : ∀ e ∈ edges, store.Has e) :
    EnsuresIn sound (disjAll edges) store fun e later =>
      later.Denotes e fun a => ∃ g ∈ edges, store.eval g a = true :=
  (ensures_disjFrom hs (founded hs).denotes_zero hedges).weaken
    fun _ _ _ _ he => he.congr fun a => by rw [false_or]

section Lists

variable {α : Type} {P : α → Valuation → Prop} {xs : List α} {edges : List Edge}

theorem ensures_conjAll_each (hs : sound store) (h : store.DenotesEach P xs edges) :
    EnsuresIn sound (conjAll edges) store fun e later => later.Denotes e fun a => ∀ x ∈ xs, P x a :=
  (ensures_conjAll hs h.has).weaken fun _ _ _ _ he => he.congr h.forall_iff

theorem ensures_disjAll_each (hs : sound store) (h : store.DenotesEach P xs edges) :
    EnsuresIn sound (disjAll edges) store fun e later => later.Denotes e fun a => ∃ x ∈ xs, P x a :=
  (ensures_disjAll hs h.has).weaken fun _ _ _ _ he => he.congr h.exists_iff

end Lists

end Connectives

end Diagram

end PlanningGame
