import Mathlib
import PlanningGame.Proofs.Lockstep
import PlanningGame.Proofs.Diagram.Within

/-!
# Diagrams of the same shape in two stores

Two stores may hold the same diagram at different positions, beside others. An edge of one store is
then a copy of an edge of the other. It has the same function, and the copy of an edge is unique,
because a store keeps every node once. No operation looks at positions other than to ask whether two
edges are equal, so applied to copies it ends alike: the answers are again copies, unless one of the
stores is full.
-/
namespace PlanningGame

namespace Store

variable {s t s' t' store : Store} {e f g e' f' : Edge}

/-- The second edge leads to a diagram of the second store that has the shape of the one of the
first edge in the first store. -/
inductive Copies (s t : Store) : Edge → Edge → Prop
  | terminal {e : Edge} : e.index = 1 → Copies s t e e
  | inner {e f : Edge} : s.Has e → t.Has f → e.index ≠ 1 → f.index ≠ 1 →
      f.negated = e.negated → (t.node f.index).var = (s.node e.index).var →
      Copies s t (s.low e) (t.low f) → Copies s t (s.high e) (t.high f) → Copies s t e f

/-- Edges with the same mark, variable and branches are one. -/
theorem Founded.eq_of_branches (ht : t.Founded) (he : t.Has e) (hf : t.Has f)
    (hmark : e.negated = f.negated) (hvar : (t.node e.index).var = (t.node f.index).var)
    (hlow : t.low e = t.low f) (hhigh : t.high e = t.high f) : e = f := by
  have hnode : t.node e.index = t.node f.index := by
    unfold Store.low at hlow
    unfold Store.high at hhigh
    rw [hmark] at hlow hhigh
    have hlow := Edge.complementIf_injective _ hlow
    have hhigh := Edge.complementIf_injective _ hhigh
    generalize t.node e.index = node at *
    generalize t.node f.index = node' at *
    cases node
    cases node'
    simp_all
  have hnode' := hf.node?
  rw [← hnode] at hnode'
  exact Edge.ext (ht.unique _ _ _ he.node? hnode') hmark

namespace Copies

theorem has_left (h : s.Copies t e f) (hs : s.Founded) : s.Has e := by
  cases h with
  | terminal hi =>
    obtain rfl | rfl := Edge.eq_of_index_eq_one hi
    · exact hs.has_one
    · exact hs.has_zero
  | inner he => exact he

theorem symm (h : s.Copies t e f) : t.Copies s f e := by
  induction h with
  | terminal hi => exact .terminal hi
  | inner he hf hi hi' hmark hvar _ _ ihlow ihhigh =>
    exact .inner hf he hi' hi hmark.symm hvar.symm ihlow ihhigh

theorem has_right (h : s.Copies t e f) (ht : t.Founded) : t.Has f :=
  h.symm.has_left ht

/-- Growing stores keep copies. -/
theorem mono (h : s.Copies t e f) (hle : s ≤ s') (hle' : t ≤ t') : s'.Copies t' e f := by
  induction h with
  | terminal hi => exact .terminal hi
  | inner he hf hi hi' hmark hvar _ _ ihlow ihhigh =>
    rw [← he.low_eq hle, ← hf.low_eq hle'] at ihlow
    rw [← he.high_eq hle, ← hf.high_eq hle'] at ihhigh
    refine .inner (he.mono hle) (hf.mono hle') hi hi' hmark ?_ ihlow ihhigh
    rw [he.node_eq hle, hf.node_eq hle', hvar]

theorem neg (h : s.Copies t e f) : s.Copies t (-e) (-f) := by
  induction h with
  | terminal hi => exact .terminal hi
  | inner he hf hi hi' hmark hvar _ _ ihlow ihhigh =>
    rw [← low_neg, ← low_neg] at ihlow
    rw [← high_neg, ← high_neg] at ihhigh
    exact .inner he hf hi hi' (by simp [hmark]) hvar ihlow ihhigh

theorem complementIf (h : s.Copies t e f) (mark : Bool) :
    s.Copies t (e.complementIf mark) (f.complementIf mark) := by
  cases mark
  · exact h
  · exact h.neg

theorem negated_eq (h : s.Copies t e f) : f.negated = e.negated := by
  cases h with
  | terminal => rfl
  | inner _ _ _ _ hmark => exact hmark

theorem regular (h : s.Copies t e f) : s.Copies t e.regular f.regular := by
  have key : ∀ g : Edge, g.complementIf g.negated = g.regular := fun g => by
    ext <;> simp [Edge.regular]
  rw [← key e, ← key f, h.negated_eq]
  exact h.complementIf _

theorem index_eq_one_iff (h : s.Copies t e f) : f.index = 1 ↔ e.index = 1 := by
  cases h with
  | terminal => rfl
  | inner _ _ hi hi' => exact iff_of_false hi' hi

theorem isTerminal_eq (h : s.Copies t e f) : f.isTerminal = e.isTerminal :=
  Bool.eq_iff_iff.2 (by rw [Edge.isTerminal_iff, Edge.isTerminal_iff, h.index_eq_one_iff])

theorem var_eq (h : s.Copies t e f) (hi : e.index ≠ 1) :
    (t.node f.index).var = (s.node e.index).var := by
  cases h with
  | terminal hone => exact absurd hone hi
  | inner _ _ _ _ _ hvar => exact hvar

theorem node_var_eq (h : s.Copies t e f) (hs : s.Founded) (ht : t.Founded) :
    (t.node f.index).var = (s.node e.index).var := by
  by_cases hi : e.index = 1
  · rw [h.index_eq_one_iff.2 hi, hi, node_of_node? hs.terminal, node_of_node? ht.terminal]
  · exact h.var_eq hi

theorem level_eq (h : s.Copies t e f) : t.level f = s.level e := by
  by_cases hi : e.index = 1
  · rw [level_of_isTerminal hi, level_of_isTerminal (h.index_eq_one_iff.2 hi)]
  · rw [level_of_inner hi, level_of_inner (mt h.index_eq_one_iff.1 hi), h.var_eq hi]

theorem low (h : s.Copies t e f) (hs : s.Founded) (ht : t.Founded) :
    s.Copies t (s.low e) (t.low f) := by
  cases h with
  | terminal hi =>
    rw [hs.low_of_isTerminal hi, ht.low_of_isTerminal hi]
    exact .terminal hi
  | inner _ _ _ _ _ _ hlow => exact hlow

theorem high (h : s.Copies t e f) (hs : s.Founded) (ht : t.Founded) :
    s.Copies t (s.high e) (t.high f) := by
  cases h with
  | terminal hi =>
    rw [hs.high_of_isTerminal hi, ht.high_of_isTerminal hi]
    exact .terminal hi
  | inner _ _ _ _ _ _ _ hhigh => exact hhigh

theorem of_has (hs : s.Founded) (he : s.Has e) : s.Copies s e e := by
  refine hs.edge_induction (motive := fun e => s.Copies s e e) (fun e hi => .terminal hi) ?_ e he
  exact fun e he hi hlow hhigh => .inner he he hi hi rfl rfl hlow hhigh

/-- There is one copy of an edge. -/
theorem unique (ht : t.Founded) (h : s.Copies t e f) (h' : s.Copies t e g) : f = g := by
  induction h generalizing g with
  | terminal hi =>
    cases h' with
    | terminal => rfl
    | inner _ _ hi' => exact absurd hi hi'
  | inner _ hf hi _ hmark hvar _ _ ihlow ihhigh =>
    cases h' with
    | terminal hone => exact absurd hone hi
    | inner _ hg _ _ hmark' hvar' hlow' hhigh' =>
      exact ht.eq_of_branches hf hg (hmark.trans hmark'.symm) (hvar.trans hvar'.symm)
        (ihlow hlow') (ihhigh hhigh')

/-- Copies of two edges are equal exactly if the edges are. -/
theorem eq_iff (h : s.Copies t e f) (h' : s.Copies t e' f') (hs : s.Founded) (ht : t.Founded) :
    f = f' ↔ e = e' := by
  constructor
  · rintro rfl
    exact h.symm.unique hs h'.symm
  · rintro rfl
    exact h.unique ht h'

/-- A copy has the same function. -/
theorem eval_eq (h : s.Copies t e f) (hs : s.Founded) (ht : t.Founded) (a : Valuation) :
    t.eval f a = s.eval e a := by
  induction h with
  | terminal hi => obtain rfl | rfl := Edge.eq_of_index_eq_one hi <;> simp
  | inner he hf hi hi' _ hvar _ _ ihlow ihhigh =>
    rw [hs.eval_inner he hi, ht.eval_inner hf hi', hvar, ihlow, ihhigh]

end Copies

section Triples

variable {triple triple' lower upper lower' upper' : Triple} {v : Var} {low high low' high' : Edge}

/-- The three edges of the second triple are copies of those of the first. -/
structure CopiesTriple (s t : Store) (triple triple' : Triple) : Prop where
  condition : s.Copies t triple.condition triple'.condition
  positive : s.Copies t triple.positive triple'.positive
  negative : s.Copies t triple.negative triple'.negative

theorem CopiesTriple.mono (h : s.CopiesTriple t triple triple') (hle : s ≤ s') (hle' : t ≤ t') :
    s'.CopiesTriple t' triple triple' :=
  ⟨h.condition.mono hle hle', h.positive.mono hle hle', h.negative.mono hle hle'⟩

theorem CopiesTriple.has_right (h : s.CopiesTriple t triple triple') (ht : t.Founded) :
    t.HasTriple triple' :=
  ⟨h.condition.has_right ht, h.positive.has_right ht, h.negative.has_right ht⟩

theorem CopiesTriple.topVar_eq (h : s.CopiesTriple t triple triple') :
    t.topVar triple' = s.topVar triple := by
  rw [topVar, topVar, h.condition.level_eq, h.positive.level_eq, h.negative.level_eq]

/-- Triples of copies have the same standard form, over copies again. -/
inductive CopiesStandard (s t : Store) : Triple.Standard → Triple.Standard → Prop
  | settled {e f : Edge} : s.Copies t e f → CopiesStandard s t (.settled e) (.settled f)
  | reduced {triple triple' : Triple} {mark : Bool} : s.CopiesTriple t triple triple' →
      CopiesStandard s t (.reduced triple mark) (.reduced triple' mark)

section Standard

variable (hs : s.Founded) (ht : t.Founded)
include hs ht

theorem Copies.eq_one_iff (h : s.Copies t e f) : f = .one ↔ e = .one :=
  h.eq_iff (.terminal rfl) hs ht

theorem Copies.eq_zero_iff (h : s.Copies t e f) : f = .zero ↔ e = .zero :=
  h.eq_iff (.terminal rfl) hs ht

theorem copies_plainPositive (he : s.Copies t e e') (hf : s.Copies t f f') :
    s.Copies t (plainPositive e f) (plainPositive e' f') := by
  simp only [plainPositive, hf.eq_iff he hs ht, hf.eq_iff he.neg hs ht]
  split_ifs
  · exact .terminal rfl
  · exact .terminal rfl
  · exact hf

theorem copies_plainNegative (he : s.Copies t e e') (hf : s.Copies t f f') :
    s.Copies t (plainNegative e f) (plainNegative e' f') := by
  simp only [plainNegative, hf.eq_iff he hs ht, hf.eq_iff he.neg hs ht]
  split_ifs
  · exact .terminal rfl
  · exact .terminal rfl
  · exact hf

omit hs ht in
/-- A mark on the positive branch is moved to the answer, on both sides or on none. -/
theorem CopiesTriple.mark (h : s.CopiesTriple t triple triple') :
    s.CopiesStandard t
      (if triple.positive.negated then
        .reduced ⟨triple.condition, -triple.positive, -triple.negative⟩ true
      else .reduced triple false)
      (if triple'.positive.negated then
        .reduced ⟨triple'.condition, -triple'.positive, -triple'.negative⟩ true
      else .reduced triple' false) := by
  rw [h.positive.negated_eq]
  split
  · exact .reduced ⟨h.condition, h.positive.neg, h.negative.neg⟩
  · exact .reduced h

theorem CopiesTriple.standard (h : s.CopiesTriple t triple triple') :
    s.CopiesStandard t triple.standard triple'.standard := by
  obtain ⟨f, g, k⟩ := triple
  obtain ⟨f', g', k'⟩ := triple'
  obtain ⟨hf, hg, hk⟩ := h
  dsimp only at hf hg hk
  have hp := copies_plainPositive hs ht hf hg
  have hn := copies_plainNegative hs ht hf hk
  rw [standard_eq, standard_eq]
  generalize plainPositive f g = p at *
  generalize plainPositive f' g' = p' at *
  generalize plainNegative f k = n at *
  generalize plainNegative f' k' = n' at *
  simp only [hf.eq_one_iff hs ht, hf.eq_zero_iff hs ht, hp.eq_iff hn hs ht, hp.eq_one_iff hs ht,
    hp.eq_zero_iff hs ht, hn.eq_one_iff hs ht, hn.eq_zero_iff hs ht]
  by_cases hone : f = .one
  · simp only [if_pos hone]
    exact .settled hg
  by_cases hzero : f = .zero
  · simp only [if_neg hone, if_pos hzero]
    exact .settled hk
  by_cases hsame : p = n
  · simp only [if_neg hone, if_neg hzero, if_pos hsame]
    exact .settled hp
  by_cases hself : p = .one ∧ n = .zero
  · simp only [if_neg hone, if_neg hzero, if_neg hsame, if_pos hself]
    exact .settled hf
  by_cases hopposite : p = .zero ∧ n = .one
  · simp only [if_neg hone, if_neg hzero, if_neg hsame, if_neg hself, if_pos hopposite]
    exact .settled hf.neg
  · simp only [if_neg hone, if_neg hzero, if_neg hsame, if_neg hself, if_neg hopposite]
    refine CopiesTriple.mark ?_
    rw [hf.negated_eq]
    split
    · exact ⟨hf.neg, hn, hp⟩
    · exact ⟨hf, hp, hn⟩

/-- The parts of copies are copies. -/
theorem Copies.cofactors (h : s.Copies t e f) (hcof : s.cofactors e v = .ok (low, high))
    (hcof' : t.cofactors f v = .ok (low', high')) :
    s.Copies t low low' ∧ s.Copies t high high' := by
  unfold Store.cofactors at hcof hcof'
  rw [h.level_eq] at hcof'
  split at hcof
  · exact absurd hcof (by simp)
  rw [if_neg ‹_›] at hcof'
  split at hcof
  · rw [if_pos ‹_›] at hcof'
    cases hcof
    cases hcof'
    exact ⟨h, h⟩
  rw [if_neg ‹_›] at hcof'
  split at hcof
  · rw [if_pos ‹_›] at hcof'
    cases hcof
    cases hcof'
    exact ⟨h.low hs ht, h.high hs ht⟩
  · exact absurd hcof (by simp)

theorem Parts.copies (h : s.Parts triple lower upper) (h' : t.Parts triple' lower' upper')
    (hc : s.CopiesTriple t triple triple') :
    s.CopiesTriple t lower lower' ∧ s.CopiesTriple t upper upper' := by
  obtain ⟨-, -, hcond, hpos, hneg⟩ := h
  obtain ⟨-, -, hcond', hpos', hneg'⟩ := h'
  rw [hc.topVar_eq] at hcond' hpos' hneg'
  obtain ⟨hc₁, hc₂⟩ := hc.condition.cofactors hs ht hcond hcond'
  obtain ⟨hp₁, hp₂⟩ := hc.positive.cofactors hs ht hpos hpos'
  obtain ⟨hn₁, hn₂⟩ := hc.negative.cofactors hs ht hneg hneg'
  exact ⟨⟨hc₁, hp₁, hn₁⟩, hc₂, hp₂, hn₂⟩

/-- Decisions between copies are copies. -/
theorem Decided.copies (h : s.Decided v low high e) (h' : t.Decided v low' high' f) (hv : v ≠ 0)
    (hlow : s.Copies t low low') (hhigh : s.Copies t high high') : s.Copies t e f := by
  unfold Decided at h h'
  simp only [hlow.eq_iff hhigh hs ht] at h'
  split at h
  · rw [if_pos ‹_›] at h'
    rw [h, h']
    exact hlow
  · rw [if_neg ‹_›] at h'
    obtain ⟨hmark, hnode⟩ := h
    obtain ⟨hmark', hnode'⟩ := h'
    have hne : (⟨v, low, high⟩ : Node) ≠ .terminal := fun heq => hv (congrArg Node.var heq)
    have hne' : (⟨v, low', high'⟩ : Node) ≠ .terminal := fun heq => hv (congrArg Node.var heq)
    refine .inner (has_of_node? hnode) (has_of_node? hnode')
      (Diagram.index_ne_one_of_node? hs hne hnode) (Diagram.index_ne_one_of_node? ht hne' hnode')
      (hmark'.trans hmark.symm) (by rw [node_of_node? hnode, node_of_node? hnode']) ?_ ?_
    · rwa [Store.low, Store.low, node_of_node? hnode, node_of_node? hnode', hmark, hmark']
    · rwa [Store.high, Store.high, node_of_node? hnode, node_of_node? hnode', hmark, hmark']

theorem Branches.copies (h : s.Branches v low high e) (h' : t.Branches v low' high' f)
    (hlow : s.Copies t low low') (hhigh : s.Copies t high high') : s.Copies t e f := by
  obtain ⟨hv, hd⟩ := h
  obtain ⟨-, hd'⟩ := h'
  rw [hhigh.negated_eq] at hd'
  split at hd
  · rw [if_pos ‹_›] at hd'
    have hneg := (hd.copies hs ht hd' hv hlow.neg hhigh.neg).neg
    rwa [neg_neg, neg_neg] at hneg
  · rw [if_neg ‹_›] at hd'
    exact hd.copies hs ht hd' hv hlow hhigh

/-- If-then-else of copies leads to copies. -/
theorem Replays.copies (h : s.Replays triple e) (h' : t.Replays triple' f)
    (hc : s.CopiesTriple t triple triple') : s.Copies t e f := by
  induction h generalizing triple' f with
  | settled hstd =>
    have hkey := hc.standard hs ht
    rw [hstd] at hkey
    cases h' with
    | settled hstd' =>
      rw [hstd'] at hkey
      cases hkey with
      | settled he => exact he
    | reduced hstd' =>
      rw [hstd'] at hkey
      exact nomatch hkey
  | reduced hstd hparts _ _ hbranch ihlow ihhigh =>
    have hkey := hc.standard hs ht
    rw [hstd] at hkey
    cases h' with
    | settled hstd' =>
      rw [hstd'] at hkey
      exact nomatch hkey
    | reduced hstd' hparts' hlow' hhigh' hbranch' =>
      rw [hstd'] at hkey
      cases hkey with
      | reduced hreduced =>
        obtain ⟨hlower, hupper⟩ := hparts.copies hs ht hparts' hreduced
        rw [hreduced.topVar_eq] at hbranch'
        exact (hbranch.copies hs ht hbranch' (ihlow hlow' hlower)
          (ihhigh hhigh' hupper)).complementIf _

end Standard

end Triples

section Support

variable {depth depth' : Nat} {seen seen' : Std.TreeSet Nat}

theorem Copies.index_eq_iff (h : s.Copies t e f) (h' : s.Copies t e' f') (hs : s.Founded)
    (ht : t.Founded) : f.index = f'.index ↔ e.index = e'.index := by
  have key : ∀ g g' : Edge, g.index = g'.index ↔ g.regular = g'.regular := fun g g' => by
    simp [Edge.regular]
  rw [key, key, h.regular.eq_iff h'.regular hs ht]

/-- A position was seen on one side exactly if that of the copy was seen on the other, as the
terminal was. -/
structure SeenAlike (s t : Store) (seen seen' : Std.TreeSet Nat) : Prop where
  terminal : 1 ∈ seen
  mem_iff : ∀ e f : Edge, s.Copies t e f → (f.index ∈ seen' ↔ e.index ∈ seen)

theorem SeenAlike.insert (h : SeenAlike s t seen seen') (hs : s.Founded) (ht : t.Founded)
    (he : s.Copies t e f) : SeenAlike s t (seen.insert e.index) (seen'.insert f.index) := by
  refine ⟨Std.TreeSet.mem_insert.2 (.inr h.terminal), fun e' f' he' => ?_⟩
  rw [Std.TreeSet.mem_insert, Std.TreeSet.mem_insert, h.mem_iff e' f' he',
    Std.LawfulEqOrd.compare_eq_iff_eq, Std.LawfulEqOrd.compare_eq_iff_eq,
    he.index_eq_iff he' hs ht]

/-- Copies are visited in step. -/
theorem Copies.visitWithin (he : s.Copies t e f) (hs : s.Founded) (ht : t.Founded)
    (hd : e.index ≤ depth) (hd' : f.index ≤ depth') (hseen : SeenAlike s t seen seen') :
    SeenAlike s t (s.visitWithin depth e.index seen) (t.visitWithin depth' f.index seen') := by
  have hpos := (he.has_left hs).1
  have hpos' := (he.has_right ht).1
  induction depth generalizing e f depth' seen seen' with
  | zero => omega
  | succ depth ih =>
    obtain ⟨depth', rfl⟩ := Nat.exists_eq_add_one_of_ne_zero (show depth' ≠ 0 by omega)
    rw [Store.visitWithin, Store.visitWithin]
    have hmem := hseen.mem_iff e f he
    rw [← Std.TreeSet.contains_iff_mem, ← Std.TreeSet.contains_iff_mem] at hmem
    simp only [hmem]
    split
    · exact hseen
    next hnew =>
    have hinner : e.index ≠ 1 := fun hi =>
      hnew (Std.TreeSet.contains_iff_mem.2 (hi ▸ hseen.terminal))
    have hinner' := mt he.index_eq_one_iff.1 hinner
    have hlow := he.low hs ht
    have hhigh := he.high hs ht
    have hl := hs.low_lt (he.has_left hs) hinner
    have hh := hs.high_lt (he.has_left hs) hinner
    have hl' := ht.low_lt (he.has_right ht) hinner'
    have hh' := ht.high_lt (he.has_right ht) hinner'
    have hld : (t.low f).index ≤ depth' := by omega
    have hhd : (t.high f).index ≤ depth' := by omega
    have hlower := ih hlow (by omega) hld (hseen.insert hs ht he) (hlow.has_left hs).1
      (hlow.has_right ht).1
    have hupper := ih hhigh (by omega) hhd hlower (hhigh.has_left hs).1 (hhigh.has_right ht).1
    rwa [low_index, low_index, high_index, high_index] at hupper

/-- What is below an edge has a copy below its copy. -/
theorem Copies.exists_of_descends (he : s.Copies t e f) (hs : s.Founded) (ht : t.Founded) {j : Nat}
    (hd : s.Descends e j) : ∃ g k : Edge, s.Copies t g k ∧ g.index = j := by
  induction hd generalizing f with
  | refl e => exact ⟨e, f, he, rfl⟩
  | low _ ih => exact ih (he.low hs ht)
  | high _ ih => exact ih (he.high hs ht)

theorem Copies.mem_support (he : s.Copies t e f) (hs : s.Founded) (ht : t.Founded) {v : Var}
    (hv : v ∈ s.support e) : v ∈ t.support f := by
  obtain ⟨j, hj, rfl⟩ := mem_support_iff.1 hv
  obtain ⟨hinner, hd⟩ := descends_of_mem_innerPositions hj
  obtain ⟨g, k, hg, rfl⟩ := he.exists_of_descends hs ht hd
  have hstart : SeenAlike s t ((∅ : Std.TreeSet Nat).insert 1) ((∅ : Std.TreeSet Nat).insert 1) := by
    refine ⟨Std.TreeSet.mem_insert_self, fun e f he => ?_⟩
    simp only [Std.TreeSet.mem_insert, Std.LawfulEqOrd.compare_eq_iff_eq,
      Std.TreeSet.not_mem_emptyc, or_false]
    rw [eq_comm, he.index_eq_one_iff, eq_comm]
  have hseen := he.visitWithin hs ht le_rfl le_rfl hstart
  obtain ⟨hmem, -⟩ := List.mem_filter.1 hj
  have hk : k.index ∈ t.innerPositions [f] := by
    refine List.mem_filter.2 ⟨Std.TreeSet.mem_toList.2 ?_, ?_⟩
    · exact (hseen.mem_iff g k hg).2 (Std.TreeSet.mem_toList.1 hmem)
    · exact decide_eq_true (mt hg.index_eq_one_iff.1 hinner)
  exact mem_support_iff.2 ⟨k.index, hk, hg.var_eq hinner⟩

/-- Copies test the same variables. -/
theorem Copies.support_eq (he : s.Copies t e f) (hs : s.Founded) (ht : t.Founded) :
    t.support f = s.support e := by
  have hiff : ∀ v, v ∈ t.support f ↔ v ∈ s.support e := fun v =>
    ⟨he.symm.mem_support ht hs, he.mem_support hs ht⟩
  unfold support at hiff ⊢
  refine Std.TreeSet.Equiv.toList_eq (Std.TreeSet.Equiv.of_forall_mem_iff fun v => ?_)
  rw [← Std.TreeSet.mem_toList, ← Std.TreeSet.mem_toList, hiff]

end Support

end Store

end PlanningGame
