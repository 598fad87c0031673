import Mathlib
import PlanningGame.Diagram.Models
import PlanningGame.Proofs.Diagram.Dependence

/-!
# Satisfying paths

The walk to the constant true takes the high edge unless this is the constant false, and it never
goes back. As the two edges of a node differ, one of them is not the constant false, so the walk
cannot get stuck. In an ordered diagram it meets its variables from the first to the last, each one
once, and whatever gives them the values on the walk makes the function true.
-/
namespace PlanningGame

namespace Store

variable {s : Store} {e : Edge} {vars : Set Var} {v : Var} {value : Bool} {l : Int}
  {literals : List Int} {a : Valuation} {depth : Nat}

section Literals

theorem signed_of_lt (hv : v.toNat < 2 ^ 31) : signed v = v.toNat := by
  unfold signed
  rw [Int.bmod_def]
  omega

/-- A variable that leaves room for the sign has both literals. -/
theorem pathLiteral_of_lt (hv : v.toNat < 2 ^ 31) :
    pathLiteral v value = .ok (if value then (v.toNat : Int) else -v.toNat) := by
  have hne : (v.toNat : Int) ≠ leastSigned := by
    unfold leastSigned
    omega
  unfold pathLiteral
  rw [signed_of_lt hv, if_neg hne]
  cases value <;> rfl

theorem natAbs_of_pathLiteral (hv : v.toNat < 2 ^ 31) (hl : pathLiteral v value = .ok l) :
    l.natAbs = v.toNat := by
  rw [pathLiteral_of_lt hv] at hl
  obtain rfl := Except.ok.inj hl
  cases value <;> simp

theorem meets_iff_of_pathLiteral (hv : v.toNat < 2 ^ 31) (hne : v ≠ 0)
    (hl : pathLiteral v value = .ok l) : a.Meets l ↔ a v = value := by
  have hpos : 0 < v.toNat := Nat.pos_of_ne_zero fun hz => hne (UInt32.toNat.inj hz)
  have hsign : decide (0 < l) = value := by
    rw [pathLiteral_of_lt hv] at hl
    obtain rfl := Except.ok.inj hl
    cases value <;> simp [hpos]
  unfold Valuation.Meets
  rw [natAbs_of_pathLiteral hv hl, hsign]
  simp

end Literals

section Branch

/-- The branch of a diagram for a value of its topmost variable. -/
def branchOn (store : Store) (e : Edge) (value : Bool) : Edge :=
  if value then store.high e else store.low e

theorem Founded.has_branchOn (h : s.Founded) (he : s.Has e) (value : Bool) :
    s.Has (s.branchOn e value) := by
  cases value
  · exact h.has_low he
  · exact h.has_high he

theorem Founded.branchOn_lt (h : s.Founded) (he : s.Has e) (hi : e.index ≠ 1) (value : Bool) :
    (s.branchOn e value).index < e.index := by
  cases value
  · exact h.low_lt he hi
  · exact h.high_lt he hi

theorem Founded.eval_branchOn (h : s.Founded) (he : s.Has e) (hi : e.index ≠ 1)
    (hvalue : a (s.node e.index).var = value) : s.eval e a = s.eval (s.branchOn e value) a := by
  rw [h.eval_inner he hi, hvalue, branchOn]
  cases value <;> rfl

theorem Ascends.below_branchOn (h : s.Ascends e) (hi : e.index ≠ 1) (value : Bool) :
    s.Below (s.node e.index).var (s.branchOn e value) := by
  cases h with
  | terminal hone => exact absurd hone hi
  | inner _ hbelow hbelow' =>
    cases value
    · exact hbelow
    · exact hbelow'

theorem OrderedOver.branchOn (h : s.OrderedOver vars e) (hs : s.Founded) (value : Bool) :
    s.OrderedOver vars (s.branchOn e value) := by
  cases value
  · exact h.low hs
  · exact h.high hs

/-- The low edge is not the constant false as well. -/
theorem Founded.branchOn_ne_zero (h : s.Founded) (he : s.Has e) (hi : e.index ≠ 1) :
    s.branchOn e (decide (s.high e ≠ .zero)) ≠ .zero := by
  by_cases hzero : s.high e = .zero
  · rw [decide_eq_false (not_not.2 hzero)]
    exact fun hlow => h.low_ne_high he hi (hlow.trans hzero.symm)
  · rwa [decide_eq_true hzero]

end Branch

/-- The walk from an edge to the constant true, of any length, with its literals. -/
inductive Walks (store : Store) : Edge → List Int → Prop
  | one : Walks store .one []
  | step {e : Edge} {l : Int} {rest : List Int} : e ≠ .one →
      pathLiteral (store.node e.index).var (decide (store.high e ≠ .zero)) = .ok l →
      Walks store (store.branchOn e (decide (store.high e ≠ .zero))) rest →
      Walks store e (l :: rest)

namespace Walks

/-- From the constant false there is no way to the constant true. -/
theorem ne_zero (h : s.Walks e literals) (hs : s.Founded) : e ≠ .zero := by
  induction h with
  | one => decide
  | @step e l rest _ _ _ ih =>
    rintro rfl
    refine ih ?_
    unfold branchOn
    rw [hs.low_of_isTerminal rfl, hs.high_of_isTerminal rfl, ite_self]

/-- The bounded walk does not run out of steps. -/
theorem pathWithin_eq (h : s.Walks e literals) (hs : s.Founded) (he : s.Has e)
    (hd : e.index ≤ depth) : s.pathWithin depth e = .ok literals := by
  induction h generalizing depth with
  | one => cases depth <;> simp [pathWithin]
  | @step e l rest hone hl hrest ih =>
    have hi := Edge.index_ne_one hone ((step hone hl hrest).ne_zero hs)
    have hlt := hs.branchOn_lt he hi (decide (s.high e ≠ .zero))
    cases depth with
    | zero => omega
    | succ depth =>
      have hnext := ih (hs.has_branchOn he _) (Nat.lt_succ_iff.1 (hlt.trans_le hd))
      unfold branchOn at hnext
      rw [pathWithin, if_neg hone]
      dsimp only
      rw [hl, hnext]
      rfl

/-- Where variables leave room for the sign, the walk goes on until it reaches the constant true. -/
theorem exists_of_orderedOver (h : s.OrderedOver vars e) (hs : s.Founded)
    (hvars : ∀ v ∈ vars, v.toNat < 2 ^ 31) (hne : e ≠ .zero) : ∃ literals, s.Walks e literals := by
  induction hn : e.index using Nat.strong_induction_on generalizing e with
  | _ n ih =>
    subst hn
    by_cases hone : e = .one
    · exact hone ▸ ⟨[], .one⟩
    · have hi := Edge.index_ne_one hone hne
      obtain ⟨rest, hrest⟩ := ih _ (hs.branchOn_lt h.has hi (decide (s.high e ≠ .zero)))
        (h.branchOn hs _) (hs.branchOn_ne_zero h.has hi) rfl
      exact ⟨_ :: rest, .step hone (pathLiteral_of_lt (hvars _ (h.var_mem hs hi))) hrest⟩

variable (hs : s.Founded) (hvars : ∀ v ∈ vars, v.toNat < 2 ^ 31)
include hs hvars

/-- The first literal gives the topmost variable the value that leads on. -/
theorem head {rest : List Int} (h : s.Walks e (l :: rest)) (hover : s.OrderedOver vars e) :
    e.index ≠ 1 ∧ (s.node e.index).var ∈ vars ∧ (s.node e.index).var ≠ 0 ∧
      l.natAbs = (s.node e.index).var.toNat ∧
      ∀ a : Valuation, a.Meets l ↔ a (s.node e.index).var = decide (s.high e ≠ .zero) := by
  have hne := h.ne_zero hs
  cases h with
  | step hone hl _ =>
    have hi := Edge.index_ne_one hone hne
    have hmem := hover.var_mem hs hi
    have hpos := (hs.decides hover.has hi).var_ne_zero
    exact ⟨hi, hmem, hpos, natAbs_of_pathLiteral (hvars _ hmem) hl,
      fun _ => meets_iff_of_pathLiteral (hvars _ hmem) hpos hl⟩

/-- Below a variable the walk meets greater variables only. -/
theorem lt_natAbs (h : s.Walks e literals) (hover : s.OrderedOver vars e) (hb : s.Below v e) :
    ∀ l ∈ literals, v.toNat < l.natAbs := by
  induction h generalizing v with
  | one => simp
  | @step e l rest hone hl hrest ih =>
    obtain ⟨hi, -, -, habs, -⟩ := (step hone hl hrest).head hs hvars hover
    have hlt := UInt32.lt_iff_toNat_lt.1 (hb.resolve_left hi)
    rw [List.forall_mem_cons, habs]
    exact ⟨hlt, fun k hk => hlt.trans
      (ih (hover.branchOn hs _) (hover.ascends.below_branchOn hi _) k hk)⟩

theorem pairwise (h : s.Walks e literals) (hover : s.OrderedOver vars e) :
    (literals.map Int.natAbs).Pairwise (· < ·) := by
  induction h with
  | one => simp
  | @step e l rest hone hl hrest ih =>
    obtain ⟨hi, -, -, habs, -⟩ := (step hone hl hrest).head hs hvars hover
    rw [List.map_cons, List.pairwise_cons, List.forall_mem_map, habs]
    exact ⟨hrest.lt_natAbs hs hvars (hover.branchOn hs _) (hover.ascends.below_branchOn hi _),
      ih (hover.branchOn hs _)⟩

theorem mem_vars (h : s.Walks e literals) (hover : s.OrderedOver vars e) :
    ∀ l ∈ literals, l ≠ 0 ∧ l.natAbs.toUInt32 ∈ vars := by
  induction h with
  | one => simp
  | @step e l rest hone hl hrest ih =>
    obtain ⟨-, hmem, hpos, habs, -⟩ := (step hone hl hrest).head hs hvars hover
    refine List.forall_mem_cons.2 ⟨⟨?_, ?_⟩, ih (hover.branchOn hs _)⟩
    · rintro rfl
      exact hpos (UInt32.toNat.inj habs.symm)
    · rw [habs]
      simpa using hmem

/-- Whatever agrees with the walk makes the function true. -/
theorem eval_eq_true (h : s.Walks e literals) (hover : s.OrderedOver vars e)
    (ha : ∀ l ∈ literals, a.Meets l) : s.eval e a = true := by
  induction h with
  | one => exact eval_one
  | @step e l rest hone hl hrest ih =>
    obtain ⟨hi, -, -, -, hmeets⟩ := (step hone hl hrest).head hs hvars hover
    obtain ⟨hhead, htail⟩ := List.forall_mem_cons.1 ha
    rw [hs.eval_branchOn hover.has hi ((hmeets a).1 hhead)]
    exact ih (hover.branchOn hs _) htail

end Walks

end Store

namespace Manager

variable {sizes : TableSizes} {journal : Journal} {origin m : Manager} {e : Edge}

/-- A satisfying path of an ordered diagram over variables below the sign bit is found exactly if
some valuation satisfies the diagram. It is the walk that never goes back, with literals of tested
variables in increasing order, and each valuation that agrees with all literals satisfies the
diagram. -/
theorem satisfyingPath_exact (hcreate : create sizes journal = .ok origin)
    (hreach : origin.Leads m) (he : m.store.Has e) (hascends : m.store.Ascends e)
    (hvars : ∀ v ∈ m.store.support e, v.toNat < 2 ^ 31) :
    ∃ path, m.store.satisfyingPath e = .ok path ∧
      (path = none ↔ ∀ a, m.store.eval e a = false) ∧
      ∀ literals, path = some literals → m.store.Walks e literals ∧
        (literals.map Int.natAbs).Pairwise (· < ·) ∧
        (∀ l ∈ literals, l ≠ 0 ∧ l.natAbs.toUInt32 ∈ m.store.support e) ∧
        ∀ a : Valuation, (∀ l ∈ literals, a.Meets l) → m.store.eval e a = true := by
  have hs := hreach.replayable hcreate
  have hfounded := hs.toFounded
  have hover : m.store.OrderedOver {v | v ∈ m.store.support e} e := ⟨he, hascends, fun _ hv => hv⟩
  by_cases hne : e = .zero
  · refine ⟨none, by rw [Store.satisfyingPath, if_pos hne], ?_, fun _ h => nomatch h⟩
    simp [hne]
  · obtain ⟨literals, hwalks⟩ := Store.Walks.exists_of_orderedOver hover hfounded hvars hne
    refine ⟨some literals, ?_, iff_of_false (by simp) fun hfalse => ?_, ?_⟩
    · rw [Store.satisfyingPath, if_neg hne, hwalks.pathWithin_eq hfounded he le_rfl]
      rfl
    · -- the constant false is the only ordered diagram that is never true
      have hnever : m.store.Denotes e fun _ => False := ⟨he, by simp [hfalse]⟩
      exact hne (hascends.eq_of_denotes (.terminal rfl) hs hnever hfounded.denotes_zero)
    · rintro _ ⟨⟩
      exact ⟨hwalks, hwalks.pairwise hfounded hvars hover, hwalks.mem_vars hfounded hvars hover,
        fun a => hwalks.eval_eq_true hfounded hvars hover⟩

/-- The exclusive disjunction of the variables three and 0x7FFFFFFF, which is the last one below the
sign bit, and the constant false. -/
theorem satisfyingPath_exact_crossed :
    let e : Edge := -Edge.ofFin 4
    (∀ v ∈ crossed.store.support e, v.toNat < 2 ^ 31) ∧
      crossed.store.satisfyingPath e = .ok (some [3, -0x7FFFFFFF]) ∧
      crossed.store.Walks e [3, -0x7FFFFFFF] ∧
      crossed.store.eval e (.ofTrue [3, 5]) = true ∧
      crossed.store.satisfyingPath .zero = .ok none := by
  intro e
  have hvars : ∀ v ∈ crossed.store.support e, v.toNat < 2 ^ 31 := by simp [e, support_crossed]
  obtain ⟨path, hpath, -, hsome⟩ := satisfyingPath_exact create_crossed leads_crossed
    (has_crossed (by decide) (by decide)) ascends_crossed hvars
  have hfound : crossed.store.satisfyingPath e = .ok (some [3, -0x7FFFFFFF]) := by decide +kernel
  obtain rfl := Except.ok.inj (hpath.symm.trans hfound)
  obtain ⟨hwalks, -, -, hmeets⟩ := hsome _ rfl
  refine ⟨hvars, hfound, hwalks, hmeets _ ?_, rfl⟩
  unfold Valuation.Meets
  decide +kernel

end Manager

end PlanningGame
