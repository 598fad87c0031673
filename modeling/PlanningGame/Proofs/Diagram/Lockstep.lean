import Mathlib
import PlanningGame.Proofs.Diagram.Covers

/-!
# Operations on copies

Applied to copies in two stores, of which the first has all nodes of the second, each operation on
diagrams ends alike: its answers are copies, unless the first store is full. For if-then-else this
is read off the nodes that lead to its answer; all other operations are put together from it and
from decisions.
-/
namespace PlanningGame

namespace Store

/-- Both stores have all nodes that lead to their computed results, and the first has all nodes of
the second. -/
structure Paired (s t : Store) : Prop where
  left : s.Replayable
  right : t.Replayable
  covers : s.Covers t

theorem Replayable.paired {store : Store} (h : store.Replayable) (hroom : Diagram.HasRoom store) :
    Paired store store :=
  ⟨h, h, h.toFounded.covers hroom⟩

end Store

namespace Diagram

open Store (Paired)

variable {s t : Store} {α α' β β' : Type} {e e' f f' g g' low low' high high' : Edge} {v : Var}
  {edges edges' : List Edge}

/-- The operations end alike when they are run on the two stores. -/
abbrev Paced (op : DiagramM α) (op' : DiagramM α') (s t : Store)
    (post : α → α' → Store → Store → Prop) : Prop :=
  Lockstep Paired HasRoom op op' s t post

/-- The answers are copies. -/
abbrev Copied (e e' : Edge) (s t : Store) : Prop :=
  s.Copies t e e'

section Basics

/-- The operation answers as described or is full, and keeps computed results there. -/
theorem Mirrors.concludes {op : DiagramM α} {post post' : α → Store → Prop}
    (h : Mirrors op op s s post) (hens : EnsuresIn Store.Regular op s post') :
    Concludes Store.Replayable op s post IsFull := by
  have hfails : Concludes Store.Regular op s post' IsFull := hens.concludes fun _ _ hfull => hfull
  exact ⟨h.alike.left, h.le, h.post, hfails.fails⟩

/-- Two operations end alike if the second answers whenever the first does. -/
theorem paced_of_concludes {op : DiagramM α} {op' : DiagramM α'} {P : α → Store → Prop}
    {Q : α' → Store → Prop} {post : α → α' → Store → Store → Prop}
    (h : Concludes Store.Replayable op s P IsFull)
    (h' : ∀ a s', s'.Replayable → s ≤ s' → P a s' → Catches op' s' t Q)
    (hpost : ∀ a a' s' t', Paired s' t' → s ≤ s' → t ≤ t' → P a s' → Q a' t' → post a a' s' t') :
    Paced op op' s t post := by
  obtain ⟨hs', hle, hP, hfails⟩ := h
  unfold Paced Lockstep
  generalize op.run.run s = left at *
  obtain ⟨failure | a, s'⟩ := left
  · obtain ⟨rfl, hfull⟩ := hfails failure rfl
    exact .full (Nat.not_lt.2 hfull)
  · have ha := hP a rfl
    obtain ⟨a', t', hrun, ht', hc, hle', ha'⟩ := h' a s' hs' hle ha
    rw [hrun]
    have hpaired : Paired s' t' := ⟨hs', ht', hc⟩
    exact .answered hpaired hle hle' (hpost a a' s' t' hpaired hle hle' ha ha')

theorem paced_reject (h : Paired s t) (breach : Breach) {post : α → α' → Store → Store → Prop} :
    Paced (reject breach) (reject breach) s t post :=
  lockstep_throw _ h

/-- The stores as they are now may be read, each on its own side. -/
theorem Paced.of_current {next : Store → DiagramM α} {next' : Store → DiagramM α'}
    {post : α → α' → Store → Store → Prop} (h : Paced (next s) (next' t) s t post) :
    Paced (current >>= next) (current >>= next') s t post :=
  h

/-- Messages may differ. -/
theorem paced_note (h : Paired s t) (level : Level) (message message' : Unit → String) :
    Paced (note level message) (note level message') s t fun _ _ _ _ => True :=
  .answered ⟨h.left.note level message, h.right.note level message',
      (h.covers.mono (s.le_note level message)).of_nodes_eq rfl⟩
    (s.le_note level message) (t.le_note level message') trivial

theorem paced_note_bind (h : Paired s t) (level : Level) (message message' : Unit → String)
    {next : Unit → DiagramM α} {next' : Unit → DiagramM α'} {post : α → α' → Store → Store → Prop}
    (hnext : ∀ s' t', Paired s' t' → s ≤ s' → t ≤ t' → Paced (next ()) (next' ()) s' t' post) :
    Paced (note level message >>= next) (note level message' >>= next') s t post :=
  (paced_note h level message message').bind fun _ _ s' t' h' hle hle' _ => hnext s' t' h' hle hle'

theorem paced_branch (h : Paired s t) (hlow : s.Copies t low low') (hhigh : s.Copies t high high') :
    Paced (branch v low high) (branch v low' high') s t Copied := by
  have hs := h.left.toFounded
  have ht := h.right.toFounded
  by_cases hv : v = 0
  · unfold branch
    rw [if_pos hv, if_pos hv]
    exact paced_reject h .zeroVariable
  have hlows := hlow.has_left hs
  have hhighs := hhigh.has_left hs
  refine paced_of_concludes
    ((mirrors_branch h.left.alike hlows hhighs).concludes
      (ensures_branch h.left.regular hv hlows.denotes hhighs.denotes False.elim))
    (fun a s' hs' hle ha => catches_branch hs'.toFounded h.right (h.covers.mono hle)
      (hlow.mono hle le_rfl) (hhigh.mono hle le_rfl) ha.2) ?_
  intro a a' s' t' h' hle hle' ha ha'
  exact ha.2.copies h'.left.toFounded h'.right.toFounded ha' (hlow.mono hle hle')
    (hhigh.mono hle hle')

theorem paced_literal (h : Paired s t) (v : Var) : Paced (literal v) (literal v) s t Copied :=
  paced_branch h (.terminal rfl) (.terminal rfl)

theorem paced_addLiteral (h : Paired s t) (he : s.Copies t e e') (l : Int) :
    Paced (addLiteral e l) (addLiteral e' l) s t Copied := by
  unfold addLiteral
  dsimp only
  split
  · exact paced_branch h he (.terminal rfl)
  · exact paced_branch h (.terminal rfl) he

theorem paced_cube (h : Paired s t) (literals : List Int) :
    Paced (cube literals) (cube literals) s t Copied := by
  unfold cube
  refine paced_note_bind h _ _ _ fun s' t' h' _ _ => ?_
  exact lockstep_foldlM h' (.terminal rfl) fun l _ e e' s₁ t₁ h₁ _ _ he => paced_addLiteral h₁ he l

theorem paced_assignmentCube (h : Paired s t) (vars : List Var) (values : List Bool) :
    Paced (Manager.assignmentCube vars values) (Manager.assignmentCube vars values) s t Copied :=
  paced_cube h _

end Basics

section Connectives

theorem paced_ite (h : Paired s t) (he : s.Copies t e e') (hf : s.Copies t f f')
    (hg : s.Copies t g g') : Paced (ite e f g) (ite e' f' g') s t Copied := by
  have hs := h.left.toFounded
  have ht := h.right.toFounded
  have htriple : s.HasTriple ⟨e, f, g⟩ := ⟨he.has_left hs, hf.has_left hs, hg.has_left hs⟩
  have hcopies : s.CopiesTriple t ⟨e, f, g⟩ ⟨e', f', g'⟩ := ⟨he, hf, hg⟩
  refine paced_of_concludes
    ((mirrors_iteWithin _ h.left.alike htriple (Nat.lt_succ_self _)).concludes
      (ensures_ite h.left.regular htriple.condition.denotes htriple.positive.denotes
        htriple.negative.denotes))
    (fun a s' hs' hle ha => catches_iteWithin _ hs'.toFounded h.right (h.covers.mono hle)
      (hcopies.mono hle le_rfl) (Nat.lt_succ_self _) ha.2) ?_
  intro a a' s' t' h' hle hle' ha ha'
  exact ha.2.copies h'.left.toFounded h'.right.toFounded ha' (hcopies.mono hle hle')

theorem paced_conj (h : Paired s t) (he : s.Copies t e e') (hf : s.Copies t f f') :
    Paced (conj e f) (conj e' f') s t Copied :=
  paced_ite h he hf (.terminal rfl)

theorem paced_disj (h : Paired s t) (he : s.Copies t e e') (hf : s.Copies t f f') :
    Paced (disj e f) (disj e' f') s t Copied :=
  paced_ite h he (.terminal rfl) hf

theorem paced_imply (h : Paired s t) (he : s.Copies t e e') (hf : s.Copies t f f') :
    Paced (imply e f) (imply e' f') s t Copied :=
  paced_ite h he hf (.terminal rfl)

/-- The edges of the second list are copies of those of the first. -/
def CopiesEach (s t : Store) (edges edges' : List Edge) : Prop :=
  List.Forall₂ (s.Copies t) edges edges'

theorem CopiesEach.mono {s' t' : Store} (h : CopiesEach s t edges edges') (hle : s ≤ s')
    (hle' : t ≤ t') : CopiesEach s' t' edges edges' :=
  h.imp fun _ _ he => he.mono hle hle'

theorem CopiesEach.getElem? (h : CopiesEach s t edges edges') (i : Nat) :
    Option.Rel (s.Copies t) edges[i]? edges'[i]? := by
  induction h generalizing i with
  | nil => exact .none
  | cons he _ ih =>
    cases i with
    | zero => exact .some he
    | succ i => exact ih i

theorem paced_conjFrom (h : Paired s t) (he : s.Copies t e e')
    (hedges : CopiesEach s t edges edges') :
    Paced (conjFrom e edges) (conjFrom e' edges') s t Copied := by
  induction edges generalizing s t e e' edges' with
  | nil =>
    cases hedges
    exact lockstep_pure h he
  | cons f rest ih =>
    cases hedges with
    | cons hf hrest =>
      rw [conjFrom, conjFrom]
      refine (paced_conj h he hf).bind fun g g' s' t' h' hle hle' hg => ?_
      simp only [hg.eq_zero_iff h'.left.toFounded h'.right.toFounded]
      split
      · exact lockstep_pure h' hg
      · exact ih h' hg (CopiesEach.mono hrest hle hle')

theorem paced_conjAll (h : Paired s t) (hedges : CopiesEach s t edges edges') :
    Paced (conjAll edges) (conjAll edges') s t Copied :=
  paced_conjFrom h (.terminal rfl) hedges

theorem paced_disjFrom (h : Paired s t) (he : s.Copies t e e')
    (hedges : CopiesEach s t edges edges') :
    Paced (disjFrom e edges) (disjFrom e' edges') s t Copied := by
  induction edges generalizing s t e e' edges' with
  | nil =>
    cases hedges
    exact lockstep_pure h he
  | cons f rest ih =>
    cases hedges with
    | cons hf hrest =>
      rw [disjFrom, disjFrom]
      refine (paced_disj h he hf).bind fun g g' s' t' h' hle hle' hg => ?_
      simp only [hg.eq_one_iff h'.left.toFounded h'.right.toFounded]
      split
      · exact lockstep_pure h' hg
      · exact ih h' hg (CopiesEach.mono hrest hle hle')

theorem paced_disjAll (h : Paired s t) (hedges : CopiesEach s t edges edges') :
    Paced (disjAll edges) (disjAll edges') s t Copied :=
  paced_disjFrom h (.terminal rfl) hedges

end Connectives

section Maps

variable {κ : Type} [Ord κ] {m m' : Std.TreeMap κ Edge}

/-- What two maps hold for the same key are copies, or neither holds anything. -/
def CopiesMap (s t : Store) (m m' : Std.TreeMap κ Edge) : Prop :=
  ∀ k : κ, Option.Rel (s.Copies t) m[k]? m'[k]?

theorem CopiesMap.mono {s' t' : Store} (h : CopiesMap s t m m') (hle : s ≤ s') (hle' : t ≤ t') :
    CopiesMap s' t' m m' := by
  intro k
  have hk := h k
  generalize m[k]? = e at hk ⊢
  generalize m'[k]? = e' at hk ⊢
  cases hk with
  | some hc => exact .some (hc.mono hle hle')
  | none => exact .none

theorem CopiesMap.exists_of_getElem? (h : CopiesMap s t m m') {k : κ} (hk : m[k]? = some e) :
    ∃ e', m'[k]? = some e' ∧ s.Copies t e e' := by
  have hrel := h k
  rw [hk] at hrel
  generalize m'[k]? = image at hrel
  cases hrel with
  | some hcopy => exact ⟨_, rfl, hcopy⟩

variable [Std.TransOrd κ]

theorem copiesMap_empty : CopiesMap s t (∅ : Std.TreeMap κ Edge) ∅ := by
  intro k
  rw [Std.TreeMap.getElem?_emptyc]
  exact .none

theorem CopiesMap.insert (h : CopiesMap s t m m') (k : κ) (he : s.Copies t e e') :
    CopiesMap s t (m.insert k e) (m'.insert k e') := by
  intro k'
  rw [Std.TreeMap.getElem?_insert, Std.TreeMap.getElem?_insert]
  split
  · exact .some he
  · exact h k'

theorem CopiesMap.getD (h : CopiesMap s t m m') (k : κ) (he : s.Copies t e e') :
    s.Copies t (m.getD k e) (m'.getD k e') := by
  rw [Std.TreeMap.getD_eq_getD_getElem?, Std.TreeMap.getD_eq_getD_getElem?]
  have hk := h k
  generalize m[k]? = f at hk ⊢
  generalize m'[k]? = f' at hk ⊢
  cases hk with
  | some hc => exact hc
  | none => exact he

theorem CopiesMap.insertMany {l l' : List (κ × Edge)} (h : CopiesMap s t m m')
    (hl : List.Forall₂ (fun p p' => p'.1 = p.1 ∧ s.Copies t p.2 p'.2) l l') :
    CopiesMap s t (m.insertMany l) (m'.insertMany l') := by
  induction hl generalizing m m' with
  | nil => exact h
  | @cons p p' _ _ hp _ ih =>
    obtain ⟨k, e⟩ := p
    obtain ⟨k', e'⟩ := p'
    obtain ⟨rfl, he⟩ : k' = k ∧ s.Copies t e e' := hp
    rw [Std.TreeMap.insertMany_cons, Std.TreeMap.insertMany_cons]
    exact ih (h.insert _ he)

/-- Maps of the same keys and copies. -/
theorem copiesMap_ofList {l l' : List (κ × Edge)}
    (hl : List.Forall₂ (fun p p' => p'.1 = p.1 ∧ s.Copies t p.2 p'.2) l l') :
    CopiesMap s t (Std.TreeMap.ofList l) (Std.TreeMap.ofList l') := by
  rw [Std.TreeMap.ofList_eq_insertMany_empty, Std.TreeMap.ofList_eq_insertMany_empty]
  exact copiesMap_empty.insertMany hl

theorem CopiesMap.mem_iff (h : CopiesMap s t m m') (k : κ) : k ∈ m' ↔ k ∈ m := by
  rw [Std.TreeMap.mem_iff_isSome_getElem?, Std.TreeMap.mem_iff_isSome_getElem?]
  have hk := h k
  generalize m[k]? = e at hk ⊢
  generalize m'[k]? = e' at hk ⊢
  cases hk <;> simp

theorem CopiesMap.isEmpty_eq (h : CopiesMap s t m m') : m'.isEmpty = m.isEmpty := by
  rw [Bool.eq_iff_iff, Std.TreeMap.isEmpty_iff_forall_not_mem,
    Std.TreeMap.isEmpty_iff_forall_not_mem]
  exact forall_congr' fun k => not_congr (h.mem_iff k)

variable [Std.LawfulEqOrd κ]

/-- The entries of two such maps belong together one by one. -/
theorem CopiesMap.toList (h : CopiesMap s t m m') :
    List.Forall₂ (fun p p' => p'.1 = p.1 ∧ s.Copies t p.2 p'.2) m.toList m'.toList := by
  have hkeys : m.keys = m'.keys := by
    refine List.Perm.eq_of_pairwise (fun a b _ _ hab hba => ?_) Std.TreeMap.ordered_keys
      Std.TreeMap.ordered_keys ?_
    · have hswap : compare a b = (compare b a).swap := Std.OrientedCmp.eq_swap
      rw [hswap, hba] at hab
      exact nomatch hab
    · refine (List.perm_ext_iff_of_nodup Std.TreeMap.nodup_keys Std.TreeMap.nodup_keys).2
        fun k => ?_
      rw [Std.TreeMap.mem_keys, Std.TreeMap.mem_keys, h.mem_iff]
  rw [← Std.TreeMap.map_fst_toList_eq_keys, ← Std.TreeMap.map_fst_toList_eq_keys] at hkeys
  have hentry : ∀ p ∈ m.toList, m[p.1]? = some p.2 := fun p hp =>
    Std.TreeMap.mem_toList_iff_getElem?_eq_some.1 hp
  have hentry' : ∀ p ∈ m'.toList, m'[p.1]? = some p.2 := fun p hp =>
    Std.TreeMap.mem_toList_iff_getElem?_eq_some.1 hp
  generalize m.toList = l at *
  generalize m'.toList = l' at *
  induction l generalizing l' with
  | nil =>
    obtain rfl : l' = [] := by simpa using hkeys.symm
    exact .nil
  | cons p rest ih =>
    cases l' with
    | nil => exact absurd hkeys (by simp)
    | cons p' rest' =>
      obtain ⟨hkey, hkeys⟩ := List.cons.inj hkeys
      obtain ⟨hp, hrest⟩ := List.forall_mem_cons.1 hentry
      obtain ⟨hp', hrest'⟩ := List.forall_mem_cons.1 hentry'
      refine .cons ⟨hkey.symm, ?_⟩ (ih hrest rest' hrest' hkeys)
      have hk := h p.1
      rw [hp, hkey, hp'] at hk
      cases hk with
      | some hc => exact hc

end Maps

section Memos

/-- Each kept result of one memo belongs to one of the other. -/
structure Memo.Copies (s t : Store) (memo memo' : Memo) : Prop where
  left : ∀ e r : Edge, memo[e]? = some r →
    ∃ e' r' : Edge, s.Copies t e e' ∧ memo'[e']? = some r' ∧ s.Copies t r r'
  right : ∀ e' r' : Edge, memo'[e']? = some r' →
    ∃ e r : Edge, s.Copies t e e' ∧ memo[e]? = some r ∧ s.Copies t r r'

variable {memo memo' : Memo}

theorem Memo.Copies.symm (h : Memo.Copies s t memo memo') : Memo.Copies t s memo' memo := by
  refine ⟨fun e r hr => ?_, fun e r hr => ?_⟩
  · obtain ⟨e', r', he, hr', hc⟩ := h.right e r hr
    exact ⟨e', r', he.symm, hr', hc.symm⟩
  · obtain ⟨e', r', he, hr', hc⟩ := h.left e r hr
    exact ⟨e', r', he.symm, hr', hc.symm⟩

theorem Memo.Copies.mono {s' t' : Store} (h : Memo.Copies s t memo memo') (hle : s ≤ s')
    (hle' : t ≤ t') : Memo.Copies s' t' memo memo' := by
  refine ⟨fun e r hr => ?_, fun e r hr => ?_⟩
  · obtain ⟨e', r', he, hr', hc⟩ := h.left e r hr
    exact ⟨e', r', he.mono hle hle', hr', hc.mono hle hle'⟩
  · obtain ⟨e', r', he, hr', hc⟩ := h.right e r hr
    exact ⟨e', r', he.mono hle hle', hr', hc.mono hle hle'⟩

/-- What is kept for an edge is also kept for its copy. -/
theorem Memo.Copies.exists_kept (h : Memo.Copies s t memo memo') (ht : t.Founded)
    (he : s.Copies t e e') {r : Edge} (hr : memo[e]? = some r) :
    ∃ r', memo'[e']? = some r' ∧ s.Copies t r r' := by
  obtain ⟨f, r', hf, hr', hc⟩ := h.left e r hr
  obtain rfl := hf.unique ht he
  exact ⟨r', hr', hc⟩

theorem Memo.Copies.insert (h : Memo.Copies s t memo memo') (hs : s.Founded) (ht : t.Founded)
    (he : s.Copies t e e') (hf : s.Copies t f f') :
    Memo.Copies s t (memo.insert e f) (memo'.insert e' f') := by
  have key : ∀ {s t : Store} {e e' f f' : Edge} {memo memo' : Memo}, Memo.Copies s t memo memo' →
      s.Founded → t.Founded → s.Copies t e e' → s.Copies t f f' → ∀ g r : Edge,
      (memo.insert e f)[g]? = some r →
      ∃ g' r' : Edge, s.Copies t g g' ∧ (memo'.insert e' f')[g']? = some r' ∧ s.Copies t r r' := by
    intro s t e e' f f' memo memo' h hs ht he hf g r hr
    rw [Std.HashMap.getElem?_insert] at hr
    split at hr
    · next hg =>
      obtain rfl := eq_of_beq hg
      obtain rfl := Option.some.inj hr
      exact ⟨e', f', he, by simp, hf⟩
    · next hg =>
      obtain ⟨g', r', hg', hr', hc⟩ := h.left g r hr
      refine ⟨g', r', hg', ?_, hc⟩
      have hne : ¬ e' = g' := mt (he.eq_iff hg' hs ht).1 fun heq => hg (beq_iff_eq.2 heq)
      rw [Std.HashMap.getElem?_insert, if_neg (by simpa using hne), hr']
  refine ⟨key h hs ht he hf, fun g' r' hr' => ?_⟩
  obtain ⟨g, r, hg, hr, hc⟩ := key h.symm ht hs he.symm hf.symm g' r' hr'
  exact ⟨g, r, hg.symm, hr, hc.symm⟩

/-- The operations end alike, with memos that belong together, when they are run with such memos. -/
def PacedMemo (op : MemoM α) (op' : MemoM α') (s t : Store)
    (post : α → α' → Store → Store → Prop) : Prop :=
  ∀ memo memo' : Memo, Memo.Copies s t memo memo' → Paced (op.run memo) (op'.run memo') s t
    fun answer answer' s' t' =>
      Memo.Copies s' t' answer.2 answer'.2 ∧ post answer.1 answer'.1 s' t'

theorem pacedMemo_pure (h : Paired s t) {a : α} {a' : α'} {post : α → α' → Store → Store → Prop}
    (hpost : post a a' s t) : PacedMemo (pure a) (pure a') s t post :=
  fun _ _ hmemo => lockstep_pure h ⟨hmemo, hpost⟩

theorem PacedMemo.bind {op : MemoM α} {op' : MemoM α'} {next : α → MemoM β} {next' : α' → MemoM β'}
    {mid : α → α' → Store → Store → Prop} {post : β → β' → Store → Store → Prop}
    (h : PacedMemo op op' s t mid)
    (hnext : ∀ a a' s' t', Paired s' t' → s ≤ s' → t ≤ t' → mid a a' s' t' →
      PacedMemo (next a) (next' a') s' t' post) :
    PacedMemo (op >>= next) (op' >>= next') s t post := by
  intro memo memo' hmemo
  rw [StateT.run_bind, StateT.run_bind]
  exact (h memo memo' hmemo).bind fun a a' s' t' h' hle hle' hmid =>
    hnext a.1 a'.1 s' t' h' hle hle' hmid.2 a.2 a'.2 hmid.1

theorem Paced.liftMemo {op : DiagramM α} {op' : DiagramM α'}
    {post : α → α' → Store → Store → Prop} (h : Paced op op' s t post) :
    PacedMemo (liftM op) (liftM op') s t post := by
  intro memo memo' hmemo
  change Paced (op >>= fun answer => pure (answer, memo))
    (op' >>= fun answer => pure (answer, memo')) s t _
  exact h.bind fun _ _ _ _ h' hle hle' hpost => lockstep_pure h' ⟨hmemo.mono hle hle', hpost⟩

theorem PacedMemo.of_current {next : Store → MemoM α} {next' : Store → MemoM α'}
    {post : α → α' → Store → Store → Prop} (h : PacedMemo (next s) (next' t) s t post) :
    PacedMemo (liftM current >>= next) (liftM current >>= next') s t post :=
  h

theorem pacedMemo_memoized {compute compute' : MemoM Edge} (h : Paired s t)
    (he : s.Copies t e e') (hcompute : PacedMemo compute compute' s t Copied) :
    PacedMemo (memoized e compute) (memoized e' compute') s t Copied := by
  intro memo memo' hmemo
  have hs := h.left.toFounded
  have ht := h.right.toFounded
  unfold memoized
  rw [StateT.run_bind, StateT.run_bind]
  change Paced (pure (memo, memo) >>= _) (pure (memo', memo') >>= _) s t _
  rw [pure_bind, pure_bind]
  dsimp only
  cases hfound : memo[e]? with
  | some r =>
    obtain ⟨r', hr', hc⟩ := hmemo.exists_kept ht he hfound
    rw [hr']
    exact lockstep_pure h ⟨hmemo, hc⟩
  | none =>
    have hmiss : memo'[e']? = none := by
      refine Option.eq_none_iff_forall_ne_some.2 fun r' hr' => ?_
      obtain ⟨r, hr, -⟩ := hmemo.symm.exists_kept hs he.symm hr'
      rw [hfound] at hr
      exact nomatch hr
    rw [hmiss]
    dsimp only
    rw [StateT.run_bind, StateT.run_bind]
    refine (hcompute memo memo' hmemo).bind fun a a' s' t' h' hle hle' ha => ?_
    exact lockstep_pure h'
      ⟨ha.1.insert h'.left.toFounded h'.right.toFounded (he.mono hle hle') ha.2, ha.2⟩

theorem PacedMemo.run' {op : MemoM α} {op' : MemoM α'} {post : α → α' → Store → Store → Prop}
    (h : PacedMemo op op' s t post) : Paced (op.run' ∅) (op'.run' ∅) s t post :=
  Lockstep.map ((h ∅ ∅ ⟨fun e r hr => by simp at hr, fun e r hr => by simp at hr⟩).weaken
    fun _ _ _ _ _ _ _ hpost => hpost.2)

variable {images images' : Substitution} {value : Bool}

/-- The bounds on the depth may differ, as the positions of copies do. -/
theorem pacedMemo_restrictWithin (depth depth' : Nat) (h : Paired s t) (he : s.Copies t e e')
    (hd : e.index ≤ depth) (hd' : e'.index ≤ depth') :
    PacedMemo (restrictWithin v value depth e) (restrictWithin v value depth' e') s t Copied := by
  have hs := h.left.toFounded
  have ht := h.right.toFounded
  have hpos := (he.has_left hs).1
  have hpos' := (he.has_right ht).1
  induction depth generalizing s t e e' depth' with
  | zero => omega
  | succ depth ih =>
    obtain ⟨depth', rfl⟩ := Nat.exists_eq_add_one_of_ne_zero (show depth' ≠ 0 by omega)
    have hlow := he.low hs ht
    have hhigh := he.high hs ht
    rw [restrictWithin, restrictWithin]
    split
    · exact (paced_reject h .zeroVariable).liftMemo
    refine PacedMemo.of_current ?_
    rw [he.level_eq]
    dsimp only
    split
    · exact pacedMemo_pure h he
    next hlt =>
    split
    · refine pacedMemo_pure h ?_
      split
      · exact hhigh
      · exact hlow
    next hne =>
    have hinner : e.index ≠ 1 :=
      Store.index_ne_one_of_level_lt (UInt32.lt_of_le_of_ne (UInt32.not_lt.1 hlt) (Ne.symm hne))
    have hinner' := mt he.index_eq_one_iff.1 hinner
    have hl := hs.low_lt (he.has_left hs) hinner
    have hh := hs.high_lt (he.has_left hs) hinner
    have hl' := ht.low_lt (he.has_right ht) hinner'
    have hh' := ht.high_lt (he.has_right ht) hinner'
    refine pacedMemo_memoized h he ?_
    apply (ih depth' h hlow (by omega) (by omega) hs ht (hlow.has_left hs).1
      (hlow.has_right ht).1).bind
    intro low low' s₁ t₁ h₁ hle₁ hle₁' hlow₁
    have hhigh₁ := hhigh.mono hle₁ hle₁'
    have hs₁ := h₁.left.toFounded
    have ht₁ := h₁.right.toFounded
    apply (ih depth' h₁ hhigh₁ (by omega) (by omega) hs₁ ht₁ (hhigh₁.has_left hs₁).1
      (hhigh₁.has_right ht₁).1).bind
    intro high high' s₂ t₂ h₂ hle₂ hle₂' hhigh₂
    exact (paced_branch h₂ (hlow₁.mono hle₂ hle₂') hhigh₂).liftMemo

theorem paced_restrict (h : Paired s t) (he : s.Copies t e e') (v : Var) (value : Bool) :
    Paced (restrict e v value) (restrict e' v value) s t Copied :=
  (pacedMemo_restrictWithin _ _ h he le_rfl le_rfl).run'

theorem paced_compose (h : Paired s t) (he : s.Copies t e e') (hf : s.Copies t f f') (v : Var) :
    Paced (compose e v f) (compose e' v f') s t Copied := by
  unfold compose
  refine paced_note_bind h _ _ _ fun s₁ t₁ h₁ hle₁ hle₁' => ?_
  apply (paced_restrict h₁ (he.mono hle₁ hle₁') v true).bind
  intro whenTrue whenTrue' s₂ t₂ h₂ hle₂ hle₂' htrue
  apply (paced_restrict h₂ ((he.mono hle₁ hle₁').mono hle₂ hle₂') v false).bind
  intro whenFalse whenFalse' s₃ t₃ h₃ hle₃ hle₃' hfalse
  have hf₃ := hf.mono (hle₁.trans (hle₂.trans hle₃)) (hle₁'.trans (hle₂'.trans hle₃'))
  exact paced_ite h₃ hf₃ (htrue.mono hle₃ hle₃') hfalse

theorem pacedMemo_substituteWithin (depth depth' : Nat) (h : Paired s t)
    (himages : CopiesMap s t images images') (he : s.Copies t e e') (hd : e.index ≤ depth)
    (hd' : e'.index ≤ depth') :
    PacedMemo (substituteWithin images depth e) (substituteWithin images' depth' e') s t
      Copied := by
  have hs := h.left.toFounded
  have ht := h.right.toFounded
  have hpos := (he.has_left hs).1
  have hpos' := (he.has_right ht).1
  induction depth generalizing s t e e' depth' with
  | zero => omega
  | succ depth ih =>
    obtain ⟨depth', rfl⟩ := Nat.exists_eq_add_one_of_ne_zero (show depth' ≠ 0 by omega)
    rw [substituteWithin, substituteWithin, he.isTerminal_eq]
    split
    · exact pacedMemo_pure h he
    next hterm =>
    have hinner : e.index ≠ 1 := fun hi => hterm (Edge.isTerminal_iff.2 hi)
    have hinner' := mt he.index_eq_one_iff.1 hinner
    have hlow : s.Copies t (s.node e.index).low (t.node e'.index).low := he.regular.low hs ht
    have hhigh : s.Copies t (s.node e.index).high (t.node e'.index).high := he.regular.high hs ht
    have w := hs.decides (he.has_left hs) hinner
    have w' := ht.decides (he.has_right ht) hinner'
    refine (pacedMemo_memoized h he.regular ?_).bind fun r r' s' t' h' _ _ hr => ?_
    · refine PacedMemo.of_current ?_
      dsimp only
      rw [he.var_eq hinner]
      apply (ih depth' h himages hlow (Nat.lt_succ_iff.1 (w.low_lt.trans_le hd))
        (Nat.lt_succ_iff.1 (w'.low_lt.trans_le hd')) hs ht w.low_pos w'.low_pos).bind
      intro low low' s₁ t₁ h₁ hle₁ hle₁' hlow₁
      apply (ih depth' h₁ (himages.mono hle₁ hle₁') (hhigh.mono hle₁ hle₁')
        (Nat.lt_succ_iff.1 (w.high_lt.trans_le hd)) (Nat.lt_succ_iff.1 (w'.high_lt.trans_le hd'))
        h₁.left.toFounded h₁.right.toFounded w.high_pos w'.high_pos).bind
      intro high high' s₂ t₂ h₂ hle₂ hle₂' hhigh₂
      have hlow₂ := hlow₁.mono hle₂ hle₂'
      have hv := himages.mono (hle₁.trans hle₂) (hle₁'.trans hle₂') (s.node e.index).var
      generalize images[(s.node e.index).var]? = image at hv ⊢
      generalize images'[(s.node e.index).var]? = image' at hv ⊢
      cases hv with
      | some hc => exact (paced_ite h₂ hc hhigh₂ hlow₂).liftMemo
      | none =>
        apply (paced_literal h₂ _).liftMemo.bind
        intro image image' s₃ t₃ h₃ hle₃ hle₃' himage
        exact (paced_ite h₃ himage (hhigh₂.mono hle₃ hle₃') (hlow₂.mono hle₃ hle₃')).liftMemo
    · rw [he.negated_eq]
      exact pacedMemo_pure h' (hr.complementIf _)

theorem paced_substitute (h : Paired s t) (himages : CopiesMap s t images images')
    (he : s.Copies t e e') : Paced (substitute e images) (substitute e' images') s t Copied := by
  unfold substitute
  refine paced_note_bind h _ _ _ fun s' t' h' hle hle' => ?_
  rw [himages.isEmpty_eq]
  split
  · exact lockstep_pure h' (he.mono hle hle')
  · exact (pacedMemo_substituteWithin _ _ h' (himages.mono hle hle') (he.mono hle hle') le_rfl
      le_rfl).run'

theorem pacedMemo_existsWithin (depth depth' : Nat) (vars : List Var) (h : Paired s t)
    (he : s.Copies t e e') (hd : e.index ≤ depth) (hd' : e'.index ≤ depth') :
    PacedMemo (existsWithin depth vars e) (existsWithin depth' vars e') s t Copied := by
  have hs := h.left.toFounded
  have ht := h.right.toFounded
  have hpos := (he.has_left hs).1
  have hpos' := (he.has_right ht).1
  induction depth generalizing s t e e' depth' vars with
  | zero => omega
  | succ depth ih =>
    obtain ⟨depth', rfl⟩ := Nat.exists_eq_add_one_of_ne_zero (show depth' ≠ 0 by omega)
    have hlow := he.low hs ht
    have hhigh := he.high hs ht
    rw [existsWithin, existsWithin, he.isTerminal_eq]
    split
    · exact pacedMemo_pure h he
    next hterm =>
    have hinner : e.index ≠ 1 := fun hi => hterm (Edge.isTerminal_iff.2 hi)
    have hinner' := mt he.index_eq_one_iff.1 hinner
    have hl := hs.low_lt (he.has_left hs) hinner
    have hh := hs.high_lt (he.has_left hs) hinner
    have hl' := ht.low_lt (he.has_right ht) hinner'
    have hh' := ht.high_lt (he.has_right ht) hinner'
    refine PacedMemo.of_current ?_
    rw [he.level_eq]
    dsimp only
    cases vars.dropWhile (· < s.level e) with
    | nil => exact pacedMemo_pure h he
    | cons w rest =>
      refine pacedMemo_memoized h he ?_
      apply (ih depth' _ h hlow (by omega) (by omega) hs ht (hlow.has_left hs).1
        (hlow.has_right ht).1).bind
      intro low low' s₁ t₁ h₁ hle₁ hle₁' hlow₁
      have hhigh₁ := hhigh.mono hle₁ hle₁'
      have hs₁ := h₁.left.toFounded
      have ht₁ := h₁.right.toFounded
      have hbranches := ih depth' (w :: rest) h₁ hhigh₁ (by omega) (by omega) hs₁ ht₁
        (hhigh₁.has_left hs₁).1 (hhigh₁.has_right ht₁).1
      split
      · simp only [hlow₁.eq_one_iff hs₁ ht₁]
        split
        · exact pacedMemo_pure h₁ hlow₁
        · exact hbranches.bind fun high high' s₂ t₂ h₂ hle₂ hle₂' hhigh₂ =>
            (paced_disj h₂ (hlow₁.mono hle₂ hle₂') hhigh₂).liftMemo
      · exact hbranches.bind fun high high' s₂ t₂ h₂ hle₂ hle₂' hhigh₂ =>
          (paced_branch h₂ (hlow₁.mono hle₂ hle₂') hhigh₂).liftMemo

theorem paced_quantifyExists (h : Paired s t) (he : s.Copies t e e') (vars : List Var) :
    Paced (quantifyExists e vars) (quantifyExists e' vars) s t Copied := by
  unfold quantifyExists
  refine paced_note_bind h _ _ _ fun s' t' h' hle hle' => ?_
  exact (pacedMemo_existsWithin _ _ _ h' (he.mono hle hle') le_rfl le_rfl).run'

theorem paced_quantifyForall (h : Paired s t) (he : s.Copies t e e') (vars : List Var) :
    Paced (quantifyForall e vars) (quantifyForall e' vars) s t Copied := by
  unfold quantifyForall
  exact (paced_quantifyExists h he.neg vars).bind
    fun _ _ _ _ h' _ _ hr => lockstep_pure h' (Store.Copies.neg hr)

end Memos

end Diagram

end PlanningGame
