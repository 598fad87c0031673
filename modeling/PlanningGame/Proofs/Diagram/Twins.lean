import Mathlib
import PlanningGame.Proofs.Diagram.Quantifier
import PlanningGame.Proofs.Diagram.Replay

/-!
# Runs on alike stores

Two stores are alike if they hold the same nodes at the same positions. They may differ in their
buckets, in the results that they have kept, and in their messages. Run on two such stores, an
operation gives the same answer or fails for the same reason, and the stores it reaches are alike.

Only if-then-else looks at kept results. If its answer is there, both runs end with it and add no
node, wherever it comes from; otherwise no result for it is kept on either side, and the two runs go
on in step.
-/
namespace PlanningGame

namespace Store

variable {s t : Store} {e : Edge}

/-- The same nodes stand at the same positions of two stores. -/
structure Alike (s t : Store) : Prop where
  values_eq : t.nodes.values = s.nodes.values
  left : s.Replayable
  right : t.Replayable

theorem Alike.node?_eq (h : Alike s t) : t.node? = s.node? := by
  funext i
  cases i with
  | zero => rfl
  | succ i => exact congrArg (·[i]?) h.values_eq

theorem Alike.symm (h : Alike s t) : Alike t s :=
  ⟨h.values_eq.symm, h.right, h.left⟩

theorem Alike.le (h : Alike s t) : s ≤ t := fun i node hi => by
  rw [h.node?_eq, hi]

theorem Alike.nodeCount_eq (h : Alike s t) : t.nodeCount = s.nodeCount :=
  congrArg Array.size h.values_eq

theorem Alike.node_eq (h : Alike s t) : t.node = s.node := by
  funext i
  rw [node, node, h.node?_eq]

theorem Alike.low_eq (h : Alike s t) : t.low = s.low := by
  funext e
  rw [low, low, h.node_eq]

theorem Alike.high_eq (h : Alike s t) : t.high = s.high := by
  funext e
  rw [high, high, h.node_eq]

theorem Alike.level_eq (h : Alike s t) : t.level = s.level := by
  funext e
  rw [level, level, h.node_eq]

theorem Alike.of_nodes_eq {s' t' : Store} (h : Alike s t) (hs : s'.nodes = s.nodes)
    (ht : t'.nodes = t.nodes) (hs' : s'.Replayable) (ht' : t'.Replayable) : Alike s' t' :=
  ⟨by rw [hs, ht, h.values_eq], hs', ht'⟩

theorem Replayable.note (h : s.Replayable) (level : Level) (message : Unit → String) :
    (s.note level message).Replayable :=
  h.of_nodes_eq rfl h.recorded

theorem Adds.replayable {node : Node} {later : Store} (hadds : s.Adds node later)
    (h : s.Replayable) (hnode : s.Admits node) : later.Replayable :=
  ⟨hadds.founded h.toFounded hnode, hadds.indexed, fun i t e hi =>
    (h.recorded i t e (hadds.computed_eq ▸ hi)).mono hadds.le⟩

end Store

namespace Diagram

open Store (Alike)

variable {s t : Store} {α β : Type}

/-- Two runs end alike: with the same answer, of which something more is known, or with the same
failure. -/
structure Twins (post : α → Store → Prop) (s : Store) (left right : Except Failure α × Store) :
    Prop where
  answer_eq : right.1 = left.1
  alike : Alike left.2 right.2
  le : s ≤ left.2
  post : ∀ answer, left.1 = .ok answer → post answer left.2

/-- The operations end alike when they are run on the two stores. -/
def Mirrors (op op' : DiagramM α) (s t : Store) (post : α → Store → Prop) : Prop :=
  Twins post s (op.run.run s) (op'.run.run t)

theorem mirrors_pure (h : Alike s t) {answer : α} {post : α → Store → Prop}
    (hpost : post answer s) : Mirrors (pure answer) (pure answer) s t post :=
  ⟨rfl, h, le_rfl, fun _ heq => Except.ok.inj heq ▸ hpost⟩

theorem mirrors_reject (h : Alike s t) (breach : Breach) {post : α → Store → Prop} :
    Mirrors (reject breach) (reject breach) s t post :=
  ⟨rfl, h, le_rfl, fun answer heq =>
    absurd (show (Except.error (.breach breach) : Except Failure α) = .ok answer from heq)
      (by simp)⟩

/-- Operations in two steps end alike if both steps do. -/
theorem Mirrors.bind {op op' : DiagramM α} {next next' : α → DiagramM β} {mid : α → Store → Prop}
    {post : β → Store → Prop} (h : Mirrors op op' s t mid)
    (hnext : ∀ answer s' t', Alike s' t' → s ≤ s' → mid answer s' →
      Mirrors (next answer) (next' answer) s' t' post) :
    Mirrors (op >>= next) (op' >>= next') s t post := by
  unfold Mirrors at h ⊢
  rcases hleft : op.run.run s with ⟨outcome, s'⟩
  rcases hright : op'.run.run t with ⟨outcome', t'⟩
  rw [hleft, hright] at h
  obtain ⟨heq, halike, hle, hmid⟩ := h
  dsimp only at heq halike hle hmid
  subst heq
  cases outcome' with
  | error failure =>
    rw [run_bind_of_error hleft, run_bind_of_error hright]
    exact ⟨rfl, halike, hle, fun _ heq => absurd heq (by simp)⟩
  | ok answer =>
    rw [run_bind_of_ok hleft, run_bind_of_ok hright]
    obtain ⟨heq', halike', hle', hpost⟩ := hnext answer s' t' halike hle (hmid answer rfl)
    exact ⟨heq', halike', hle.trans hle', hpost⟩

theorem Mirrors.weaken {op op' : DiagramM α} {strong weak : α → Store → Prop}
    (h : Mirrors op op' s t strong)
    (hw : ∀ answer s' t', Alike s' t' → s ≤ s' → strong answer s' → weak answer s') :
    Mirrors op op' s t weak :=
  ⟨h.answer_eq, h.alike, h.le, fun answer heq =>
    hw answer _ _ h.alike h.le (h.post answer heq)⟩

theorem Mirrors.map {op op' : DiagramM α} {f : α → β} {post : β → Store → Prop}
    (h : Mirrors op op' s t fun answer later => post (f answer) later) :
    Mirrors (f <$> op) (f <$> op') s t post := by
  rw [← bind_pure_comp, ← bind_pure_comp]
  exact h.bind fun _ _ _ halike _ hpost => mirrors_pure halike hpost

/-- The stores as they are now may be read, each on its own side. -/
theorem Mirrors.of_current {next next' : Store → DiagramM α} {post : α → Store → Prop}
    (h : Mirrors (next s) (next' t) s t post) :
    Mirrors (current >>= next) (current >>= next') s t post :=
  h

theorem mirrors_note (h : Alike s t) (level : Level) (message : Unit → String) :
    Mirrors (note level message) (note level message) s t fun _ _ => True :=
  ⟨rfl, h.of_nodes_eq rfl rfl (h.left.note level message) (h.right.note level message),
    s.le_note level message, fun _ _ => trivial⟩

/-- Operations that give the same answer and add nothing end alike. -/
theorem mirrors_of_stays (h : Alike s t) {op op' : DiagramM α} {answer : α}
    {post : α → Store → Prop} (hop : Stays op s answer) (hop' : Stays op' t answer)
    (hpost : ∀ later, s ≤ later → post answer later) : Mirrors op op' s t post := by
  obtain ⟨s', hrun, hnodes, hs'⟩ := hop
  obtain ⟨t', hrun', hnodes', ht'⟩ := hop'
  unfold Mirrors
  rw [hrun, hrun']
  have hle := Store.le_of_nodes_eq hnodes
  exact ⟨rfl, h.of_nodes_eq hnodes hnodes' hs' ht', hle, fun _ heq =>
    Except.ok.inj heq ▸ hpost s' hle⟩

section Nodes

variable {v : Var} {low high e : Edge}

/-- A node is found at the same position, or is added at the next. -/
theorem mirrors_intern (h : Alike s t) {node : Node} (hnode : s.Admits node) :
    Mirrors (ExceptT.mk fun store => store.intern node) (ExceptT.mk fun store => store.intern node)
      s t fun e later => e.negated = false ∧ later.node? e.index = some node := by
  have hedge : ∀ {i e} {later : Store}, later.node? i = some node → Store.edgeTo i = .ok e →
      e.negated = false ∧ later.node? e.index = some node := by
    intro i e later hi he
    have hmeets := meets_edgeTo hi
    rwa [he] at hmeets
  change Twins _ s (s.intern node) (t.intern node)
  cases hfind : s.nodes.find? Node.key node with
  | some i =>
    have hi : s.node? i = some node := UniqueTable.value?_of_find? hfind
    have hfind' := find?_of_node? h.right.toFounded h.right.indexed hnode.ne_terminal (h.le _ _ hi)
    rw [intern_of_find? hfind, intern_of_find? hfind']
    exact ⟨rfl, h, le_rfl, fun e he => hedge hi he⟩
  | none =>
    have hfind' : t.nodes.find? Node.key node = none := by
      refine Option.eq_none_iff_forall_ne_some.2 fun i hi => ?_
      have hmem : s.node? i = some node := h.node?_eq ▸ UniqueTable.value?_of_find? hi
      exact h.left.indexed.not_mem_of_find? hnode.ne_terminal hfind i hmem
    obtain ⟨s', hintern, hadds⟩ := intern_of_not_find? hnode.ne_terminal h.left.indexed hfind
    obtain ⟨t', hintern', hadds'⟩ := intern_of_not_find? hnode.ne_terminal h.right.indexed hfind'
    have hnode' : t.Admits node :=
      ⟨hnode.1, hnode.2, hnode.3, hnode.has_low.mono h.le, hnode.has_high.mono h.le⟩
    rw [hintern, hintern', h.nodeCount_eq]
    refine ⟨rfl, ⟨?_, hadds.replayable h.left hnode, hadds'.replayable h.right hnode'⟩, hadds.le,
      fun e he => hedge ((hadds.node?_eq _).trans (if_pos rfl)) he⟩
    dsimp only
    rw [hadds.values_eq, hadds'.values_eq, h.values_eq]

theorem mirrors_reduced (h : Alike s t) (hv : v ≠ 0) (hmark : high.negated = false)
    (hlow : s.Has low) (hhigh : s.Has high) :
    Mirrors (reduced v low high) (reduced v low high) s t
      fun e later => later.Has e ∧ later.Decided v low high e := by
  unfold reduced Store.Decided
  split
  · exact mirrors_pure h ⟨hlow, rfl⟩
  · exact (mirrors_intern h ⟨hv, hmark, ‹_›, hlow, hhigh⟩).weaken fun e s' _ _ _ he =>
      ⟨Store.has_of_node? he.2, he⟩

theorem mirrors_branch (h : Alike s t) (hlow : s.Has low) (hhigh : s.Has high) :
    Mirrors (branch v low high) (branch v low high) s t
      fun e later => later.Has e ∧ later.Branches v low high e := by
  unfold branch Store.Branches
  split
  · exact mirrors_reject h .zeroVariable
  next hv =>
    split
    · next hmark =>
      have hneg : (-high).negated = false := by simp [hmark]
      apply (mirrors_reduced h hv hneg (Store.has_neg.2 hlow) hhigh).bind
      intro e s' t' h' _ he
      exact mirrors_pure h' ⟨he.1, hv, (neg_neg e).symm ▸ he.2⟩
    · next hmark =>
      exact (mirrors_reduced h hv (by simpa using hmark) hlow hhigh).weaken
        fun e s' t' _ _ he => ⟨he.1, hv, by simpa using he.2⟩

theorem mirrors_literal (h : Alike s t) :
    Mirrors (literal v) (literal v) s t fun e later => later.Has e :=
  (mirrors_branch h h.left.toFounded.has_zero h.left.toFounded.has_one).weaken
    fun _ _ _ _ _ he => he.1

theorem mirrors_addLiteral (h : Alike s t) (he : s.Has e) (l : Int) :
    Mirrors (addLiteral e l) (addLiteral e l) s t fun r later => later.Has r := by
  unfold addLiteral
  dsimp only
  split
  · exact (mirrors_branch h he h.left.toFounded.has_zero).weaken fun _ _ _ _ _ hr => hr.1
  · exact (mirrors_branch h h.left.toFounded.has_zero he).weaken fun _ _ _ _ _ hr => hr.1

theorem mirrors_foldlM_addLiteral (h : Alike s t) (he : s.Has e) (literals : List Int) :
    Mirrors (literals.foldlM addLiteral e) (literals.foldlM addLiteral e) s t
      fun r later => later.Has r := by
  induction literals generalizing s t e with
  | nil => exact mirrors_pure h he
  | cons l rest ih =>
    rw [List.foldlM_cons]
    exact (mirrors_addLiteral h he l).bind fun r s' t' h' _ hr => ih h' hr

theorem mirrors_cube (h : Alike s t) (literals : List Int) :
    Mirrors (cube literals) (cube literals) s t fun e later => later.Has e := by
  unfold cube
  exact (mirrors_note h _ _).bind fun _ s' t' h' _ _ =>
    mirrors_foldlM_addLiteral h' h'.left.toFounded.has_one _

end Nodes

section IfThenElse

variable {triple tr lower upper : Triple} {f g k : Edge}

theorem mirrors_remember (h : Alike s t) {e : Edge} (he : s.Expands tr e) :
    Mirrors (remember tr e) (remember tr e) s t fun _ _ => True :=
  mirrors_of_stays h (stays_remember h.left he) (stays_remember h.right (he.mono h.le))
    fun _ _ => trivial

/-- Working a standard triple out ends alike if working out its two parts does. -/
theorem mirrors_combine {depth : Nat} (h : Alike s t) (hparts : s.Parts tr lower upper)
    (ih : ∀ {s t : Store} {triple : Triple}, Alike s t → s.HasTriple triple →
      triple.weight < depth → Mirrors (iteWithin depth triple) (iteWithin depth triple) s t
        fun e later => later.Has e ∧ later.Replays triple e)
    (hd : tr.weight ≤ depth) :
    Mirrors (combine depth (s.topVar tr) tr lower upper)
      (combine depth (s.topVar tr) tr lower upper) s t
      fun e later => later.Has e ∧ later.Expands tr e := by
  have hhalves := hparts.halves h.left.toFounded
  have hlt := hhalves.lower_lt
  have hut := hhalves.upper_lt
  unfold combine
  apply (ih h hhalves.has_lower (by omega)).bind
  intro low s₁ t₁ h₁ hle₁ hlow
  apply (ih h₁ (hhalves.has_upper.mono hle₁) (by omega)).bind
  intro high s₂ t₂ h₂ hle₂ hhigh
  apply (mirrors_branch h₂ (hlow.1.mono hle₂) hhigh.1).bind
  intro e s₃ t₃ h₃ hle₃ he
  have hle := hle₁.trans (hle₂.trans hle₃)
  have hexpands : s₃.Expands tr e :=
    ⟨lower, upper, low, high, hparts.mono hle, hlow.2.mono (hle₂.trans hle₃), hhigh.2.mono hle₃,
      by rw [hparts.operands.topVar_eq hle]; exact he.2⟩
  apply (mirrors_remember h₃ hexpands).bind
  intro _ s₄ t₄ h₄ hle₄ _
  exact mirrors_pure h₄ ⟨he.1.mono hle₄, hexpands.mono hle₄⟩

/-- The induction is on the bound of the depth. Whether the answer is there does not depend on the
side, so there are two cases and not four. -/
theorem mirrors_iteWithin (depth : Nat) (h : Alike s t) (ht : s.HasTriple triple)
    (hd : triple.weight < depth) :
    Mirrors (iteWithin depth triple) (iteWithin depth triple) s t
      fun e later => later.Has e ∧ later.Replays triple e := by
  induction depth generalizing s t triple with
  | zero => omega
  | succ depth ih =>
    by_cases hknown : ∃ e, s.Replays triple e
    · obtain ⟨e, he⟩ := hknown
      have hhas := (he.computes h.left.toFounded ht).result
      exact mirrors_of_stays h (stays_iteWithin _ h.left ht hd he)
        (stays_iteWithin _ h.right (ht.mono h.le) hd (he.mono h.le))
        fun later hle => ⟨hhas.mono hle, he.mono hle⟩
    · cases hstd : triple.standard with
      | settled e => exact absurd ⟨e, .settled hstd⟩ hknown
      | reduced tr mark =>
        have hkey := h.left.toFounded.standardizes ht
        rw [hstd] at hkey
        obtain ⟨htr, hcond, hweight, -⟩ := hkey
        obtain ⟨lower, upper, hparts⟩ := h.left.toFounded.exists_parts htr hcond
        -- an answer that either table remembers would be there on both sides
        have hmiss : s.computed.find? Triple.key tr = none :=
          Option.eq_none_iff_forall_ne_some.2 fun e he =>
            hknown ⟨_, (h.left.expands_of_find? he).replays hstd⟩
        have hmiss' : t.computed.find? Triple.key tr = none :=
          Option.eq_none_iff_forall_ne_some.2 fun e he =>
            hknown ⟨_, ((h.right.expands_of_find? he).mono h.symm.le).replays hstd⟩
        have hle := s.le_lookedUp tr
        have hlook : Alike (s.lookedUp tr) (t.lookedUp tr) :=
          h.of_nodes_eq rfl rfl (h.left.lookedUp tr) (h.right.lookedUp tr)
        have hwork := mirrors_combine hlook (hparts.mono hle) ih (by omega)
        rw [htr.topVar_eq hle] at hwork
        have hresolve : Mirrors (resolve depth tr) (resolve depth tr) s t
            fun e later => later.Has e ∧ later.Expands tr e := by
          unfold Mirrors
          rw [resolve_of_miss depth hmiss hparts, resolve_of_miss depth hmiss' (hparts.mono h.le),
            htr.topVar_eq h.le]
          exact ⟨hwork.answer_eq, hwork.alike, hle.trans hwork.le, hwork.post⟩
        rw [iteWithin_of_reduced depth hstd]
        exact Mirrors.map (hresolve.weaken fun e s' t' _ _ he =>
          ⟨(Store.has_complementIf _).2 he.1, he.2.replays hstd⟩)

theorem mirrors_ite (h : Alike s t) (hf : s.Has f) (hg : s.Has g) (hk : s.Has k) :
    Mirrors (ite f g k) (ite f g k) s t fun e later => later.Has e :=
  (mirrors_iteWithin _ h ⟨hf, hg, hk⟩ (Nat.lt_succ_self _)).weaken fun _ _ _ _ _ he => he.1

theorem mirrors_conj (h : Alike s t) (hf : s.Has f) (hg : s.Has g) :
    Mirrors (conj f g) (conj f g) s t fun e later => later.Has e :=
  mirrors_ite h hf hg h.left.toFounded.has_zero

theorem mirrors_disj (h : Alike s t) (hf : s.Has f) (hg : s.Has g) :
    Mirrors (disj f g) (disj f g) s t fun e later => later.Has e :=
  mirrors_ite h hf h.left.toFounded.has_one hg

theorem mirrors_imply (h : Alike s t) (hf : s.Has f) (hg : s.Has g) :
    Mirrors (imply f g) (imply f g) s t fun e later => later.Has e :=
  mirrors_ite h hf hg h.left.toFounded.has_one

theorem mirrors_conjFrom (h : Alike s t) (hf : s.Has f) {edges : List Edge}
    (hedges : ∀ e ∈ edges, s.Has e) :
    Mirrors (conjFrom f edges) (conjFrom f edges) s t fun e later => later.Has e := by
  induction edges generalizing s t f with
  | nil => exact mirrors_pure h hf
  | cons g rest ih =>
    obtain ⟨hg, hrest⟩ := List.forall_mem_cons.1 hedges
    rw [conjFrom]
    apply (mirrors_conj h hf hg).bind
    intro e s' t' h' hle he
    split
    · exact mirrors_pure h' he
    · exact ih h' he fun e he => (hrest e he).mono hle

theorem mirrors_disjFrom (h : Alike s t) (hf : s.Has f) {edges : List Edge}
    (hedges : ∀ e ∈ edges, s.Has e) :
    Mirrors (disjFrom f edges) (disjFrom f edges) s t fun e later => later.Has e := by
  induction edges generalizing s t f with
  | nil => exact mirrors_pure h hf
  | cons g rest ih =>
    obtain ⟨hg, hrest⟩ := List.forall_mem_cons.1 hedges
    rw [disjFrom]
    apply (mirrors_disj h hf hg).bind
    intro e s' t' h' hle he
    split
    · exact mirrors_pure h' he
    · exact ih h' he fun e he => (hrest e he).mono hle

end IfThenElse

section Memos

/-- All kept results are in the store. -/
def Memo.Within (store : Store) (memo : Memo) : Prop :=
  ∀ e result : Edge, memo[e]? = some result → store.Has result

theorem Memo.Within.mono {earlier later : Store} {memo : Memo} (h : memo.Within earlier)
    (hle : earlier ≤ later) : memo.Within later :=
  fun e result hmemo => (h e result hmemo).mono hle

/-- The operations end alike, with one memo, when they are run with one memo. -/
def MirrorsMemo (op op' : MemoM α) (s t : Store) (post : α → Store → Prop) : Prop :=
  ∀ memo : Memo, memo.Within s → Mirrors (op.run memo) (op'.run memo) s t
    fun answer later => Memo.Within later answer.2 ∧ post answer.1 later

theorem mirrorsMemo_pure (h : Alike s t) {answer : α} {post : α → Store → Prop}
    (hpost : post answer s) : MirrorsMemo (pure answer) (pure answer) s t post :=
  fun _ hmemo => mirrors_pure h ⟨hmemo, hpost⟩

theorem MirrorsMemo.bind {op op' : MemoM α} {next next' : α → MemoM β} {mid : α → Store → Prop}
    {post : β → Store → Prop} (h : MirrorsMemo op op' s t mid)
    (hnext : ∀ answer s' t', Alike s' t' → s ≤ s' → mid answer s' →
      MirrorsMemo (next answer) (next' answer) s' t' post) :
    MirrorsMemo (op >>= next) (op' >>= next') s t post := by
  intro memo hmemo
  rw [StateT.run_bind, StateT.run_bind]
  exact (h memo hmemo).bind fun answer s' t' h' hle hmid =>
    hnext answer.1 s' t' h' hle hmid.2 answer.2 hmid.1

theorem Mirrors.lift {op op' : DiagramM α} {post : α → Store → Prop} (h : Mirrors op op' s t post) :
    MirrorsMemo (liftM op) (liftM op') s t post := by
  intro memo hmemo
  change Mirrors (op >>= fun answer => pure (answer, memo))
    (op' >>= fun answer => pure (answer, memo)) s t _
  exact h.bind fun _ _ _ h' hle hpost => mirrors_pure h' ⟨hmemo.mono hle, hpost⟩

theorem MirrorsMemo.of_current {next next' : Store → MemoM α} {post : α → Store → Prop}
    (h : MirrorsMemo (next s) (next' t) s t post) :
    MirrorsMemo (liftM current >>= next) (liftM current >>= next') s t post :=
  h

theorem mirrorsMemo_memoized {e : Edge} {compute compute' : MemoM Edge} (h : Alike s t)
    (hcompute : MirrorsMemo compute compute' s t fun result later => later.Has result) :
    MirrorsMemo (memoized e compute) (memoized e compute') s t
      fun result later => later.Has result := by
  intro memo hmemo
  unfold memoized
  rw [StateT.run_bind, StateT.run_bind]
  change Mirrors (pure (memo, memo) >>= _) (pure (memo, memo) >>= _) s t _
  rw [pure_bind, pure_bind]
  dsimp only
  cases hfound : memo[e]? with
  | some result => exact mirrors_pure h ⟨hmemo, hmemo e result hfound⟩
  | none =>
    dsimp only
    rw [StateT.run_bind, StateT.run_bind]
    refine (hcompute memo hmemo).bind fun answer s' t' h' _ hanswer =>
      mirrors_pure h' ⟨?_, hanswer.2⟩
    intro f kept hkept
    rw [Std.HashMap.getElem?_insert] at hkept
    split at hkept
    · exact Option.some.inj hkept ▸ hanswer.2
    · exact hanswer.1 f kept hkept

theorem MirrorsMemo.run' {op op' : MemoM α} {post : α → Store → Prop}
    (h : MirrorsMemo op op' s t post) : Mirrors (op.run' ∅) (op'.run' ∅) s t post :=
  Mirrors.map ((h ∅ fun e result hmemo => by simp at hmemo).weaken fun _ _ _ _ _ hpost => hpost.2)

variable {e : Edge} {v : Var} {value : Bool} {images : Substitution}

theorem mirrorsMemo_restrictWithin (depth : Nat) (h : Alike s t) (he : s.Has e) :
    MirrorsMemo (restrictWithin v value depth e) (restrictWithin v value depth e) s t
      fun result later => later.Has result := by
  induction depth generalizing s t e with
  | zero => exact (mirrors_reject h .exhausted).lift
  | succ depth ih =>
    have hlow := h.left.toFounded.has_low he
    have hhigh := h.left.toFounded.has_high he
    rw [restrictWithin]
    split
    · exact (mirrors_reject h .zeroVariable).lift
    refine MirrorsMemo.of_current ?_
    rw [h.level_eq, h.low_eq, h.high_eq]
    dsimp only
    split
    · exact mirrorsMemo_pure h he
    split
    · exact mirrorsMemo_pure h (by split <;> assumption)
    refine mirrorsMemo_memoized h ?_
    apply (ih h hlow).bind
    intro low s₁ t₁ h₁ hle₁ hlow₁
    apply (ih h₁ (hhigh.mono hle₁)).bind
    intro high s₂ t₂ h₂ hle₂ hhigh₂
    exact Mirrors.lift ((mirrors_branch h₂ (hlow₁.mono hle₂) hhigh₂).weaken
      fun _ _ _ _ _ hr => hr.1)

theorem mirrors_restrict (h : Alike s t) (he : s.Has e) :
    Mirrors (restrict e v value) (restrict e v value) s t fun result later => later.Has result :=
  (mirrorsMemo_restrictWithin e.index h he).run'

theorem mirrors_compose {g : Edge} (h : Alike s t) (he : s.Has e) (hg : s.Has g) :
    Mirrors (compose e v g) (compose e v g) s t fun result later => later.Has result := by
  unfold compose
  apply (mirrors_note h _ _).bind
  intro _ s₁ t₁ h₁ hle₁ _
  apply (mirrors_restrict h₁ (he.mono hle₁)).bind
  intro whenTrue s₂ t₂ h₂ hle₂ htrue
  apply (mirrors_restrict h₂ (he.mono (hle₁.trans hle₂))).bind
  intro whenFalse s₃ t₃ h₃ hle₃ hfalse
  exact mirrors_ite h₃ (hg.mono (hle₁.trans (hle₂.trans hle₃))) (htrue.mono hle₃) hfalse

theorem mirrorsMemo_substituteWithin (depth : Nat) (h : Alike s t) (himages : HasImages s images)
    (he : s.Has e) :
    MirrorsMemo (substituteWithin images depth e) (substituteWithin images depth e) s t
      fun result later => later.Has result := by
  induction depth generalizing s t e with
  | zero => exact (mirrors_reject h .exhausted).lift
  | succ depth ih =>
    rw [substituteWithin]
    split
    · exact mirrorsMemo_pure h he
    next hterm =>
      have hinner : e.index ≠ 1 := fun hi => hterm (Edge.isTerminal_iff.2 hi)
      have w := h.left.toFounded.decides he hinner
      have hlow : s.Has (s.node e.index).low := ⟨w.low_pos, w.low_lt.le.trans he.2⟩
      have hhigh : s.Has (s.node e.index).high := ⟨w.high_pos, w.high_lt.le.trans he.2⟩
      refine (mirrorsMemo_memoized h ?_).bind fun result s' t' h' _ hr =>
        mirrorsMemo_pure h' ((Store.has_complementIf _).2 hr)
      refine MirrorsMemo.of_current ?_
      rw [h.node_eq]
      apply (ih h himages hlow).bind
      intro low s₁ t₁ h₁ hle₁ hlow₁
      apply (ih h₁ (himages.mono hle₁) (hhigh.mono hle₁)).bind
      intro high s₂ t₂ h₂ hle₂ hhigh₂
      have himages₂ := himages.mono (hle₁.trans hle₂)
      cases hfound : images[(s.node e.index).var]? with
      | some image =>
        exact Mirrors.lift (mirrors_ite h₂ (himages₂ _ image hfound) hhigh₂ (hlow₁.mono hle₂))
      | none =>
        apply (Mirrors.lift (mirrors_literal h₂)).bind
        intro image s₃ t₃ h₃ hle₃ himage
        exact Mirrors.lift (mirrors_ite h₃ himage (hhigh₂.mono hle₃) (hlow₁.mono (hle₂.trans hle₃)))

theorem mirrors_substitute (h : Alike s t) (himages : HasImages s images) (he : s.Has e) :
    Mirrors (substitute e images) (substitute e images) s t
      fun result later => later.Has result := by
  unfold substitute
  apply (mirrors_note h _ _).bind
  intro _ s' t' h' hle _
  split
  · exact mirrors_pure h' (he.mono hle)
  · exact (mirrorsMemo_substituteWithin e.index h' (himages.mono hle) (he.mono hle)).run'

theorem mirrorsMemo_existsWithin (depth : Nat) (vars : List Var) (h : Alike s t) (he : s.Has e) :
    MirrorsMemo (existsWithin depth vars e) (existsWithin depth vars e) s t
      fun result later => later.Has result := by
  induction depth generalizing s t vars e with
  | zero => exact (mirrors_reject h .exhausted).lift
  | succ depth ih =>
    have hlow := h.left.toFounded.has_low he
    have hhigh := h.left.toFounded.has_high he
    rw [existsWithin]
    split
    · exact mirrorsMemo_pure h he
    refine MirrorsMemo.of_current ?_
    rw [h.level_eq, h.low_eq, h.high_eq]
    dsimp only
    cases vars.dropWhile (· < s.level e) with
    | nil => exact mirrorsMemo_pure h he
    | cons w rest =>
      refine mirrorsMemo_memoized h ?_
      apply (ih _ h hlow).bind
      intro low s₁ t₁ h₁ hle₁ hlow₁
      split
      · split
        · exact mirrorsMemo_pure h₁ hlow₁
        · apply (ih _ h₁ (hhigh.mono hle₁)).bind
          intro high s₂ t₂ h₂ hle₂ hhigh₂
          exact Mirrors.lift (mirrors_disj h₂ (hlow₁.mono hle₂) hhigh₂)
      · apply (ih _ h₁ (hhigh.mono hle₁)).bind
        intro high s₂ t₂ h₂ hle₂ hhigh₂
        exact Mirrors.lift ((mirrors_branch h₂ (hlow₁.mono hle₂) hhigh₂).weaken
          fun _ _ _ _ _ hr => hr.1)

theorem mirrors_quantifyExists (h : Alike s t) (he : s.Has e) (vars : List Var) :
    Mirrors (quantifyExists e vars) (quantifyExists e vars) s t
      fun result later => later.Has result := by
  unfold quantifyExists
  apply (mirrors_note h _ _).bind
  intro _ s' t' h' hle _
  exact (mirrorsMemo_existsWithin e.index _ h' (he.mono hle)).run'

theorem mirrors_quantifyForall (h : Alike s t) (he : s.Has e) (vars : List Var) :
    Mirrors (quantifyForall e vars) (quantifyForall e vars) s t
      fun result later => later.Has result := by
  unfold quantifyForall
  exact (mirrors_quantifyExists h (Store.has_neg.2 he) vars).bind
    fun _ _ _ h' _ hr => mirrors_pure h' (Store.has_neg.2 hr)

end Memos

end Diagram

end PlanningGame
