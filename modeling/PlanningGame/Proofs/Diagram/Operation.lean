import Mathlib
import PlanningGame.Diagram.Ite
import PlanningGame.Proofs.Yields
import PlanningGame.Proofs.Diagram.Canonicity

/-!
# Operations on sound stores

A store is sound if it is reduced, if its bucket look-up finds every node, and if every computed
result is right. A store only grows: what an edge stands for never changes. An operation is
described by what its answer stands for in the store it reaches; the only way in which it may fail
is that all positions are in use.

What the answers stand for does not depend on the order of the variables. A store in which they may
come in any order is regular. Operations are described for both notions at once: what is asked of
the order is asked only if the notion is strict.
-/
namespace PlanningGame

namespace Store

variable {store earlier later : Store} {e : Edge}

/-- Every node of the first store stands at the same position of the second. -/
instance : Preorder Store where
  le earlier later := ∀ i node, earlier.node? i = some node → later.node? i = some node
  le_refl _ _ _ h := h
  le_trans _ _ _ h₁ h₂ i node h := h₂ i node (h₁ i node h)

theorem Has.mono (h : earlier.Has e) (hle : earlier ≤ later) : later.Has e :=
  has_of_node? (hle _ _ h.node?)

theorem Has.node_eq (h : earlier.Has e) (hle : earlier ≤ later) :
    later.node e.index = earlier.node e.index :=
  node_of_node? (hle _ _ h.node?)

theorem Has.low_eq (h : earlier.Has e) (hle : earlier ≤ later) : later.low e = earlier.low e := by
  rw [low, low, h.node_eq hle]

theorem Has.high_eq (h : earlier.Has e) (hle : earlier ≤ later) :
    later.high e = earlier.high e := by
  rw [high, high, h.node_eq hle]

theorem Has.below_iff (h : earlier.Has e) (hle : earlier ≤ later) {v : Var} :
    later.Below v e ↔ earlier.Below v e := by
  rw [Below, Below, h.node_eq hle]

/-- A growing store keeps the function of every edge. -/
theorem Founded.eval_mono (h : earlier.Founded) (hle : earlier ≤ later) (he : earlier.Has e)
    (a : Valuation) : later.eval e a = earlier.eval e a := by
  suffices key : ∀ e, earlier.Has e → ∀ depth,
      e.index ≤ depth → later.evalWithin a depth e = earlier.evalWithin a depth e from
    key e he _ le_rfl
  refine h.edge_induction ?_ ?_
  · intro e hi depth _
    rw [evalWithin_of_isTerminal hi, evalWithin_of_isTerminal hi]
  · intro e he hi ihl ihh depth hd
    have hl := h.low_lt he hi
    have hh := h.high_lt he hi
    obtain ⟨depth, rfl⟩ := Nat.exists_eq_add_one_of_ne_zero (show depth ≠ 0 by omega)
    rw [evalWithin_of_inner hi, evalWithin_of_inner hi, he.node_eq hle, he.low_eq hle,
      he.high_eq hle]
    split
    · exact ihh _ (by omega)
    · exact ihl _ (by omega)

theorem Reduced.eval_mono (h : earlier.Reduced) (hle : earlier ≤ later) (he : earlier.Has e)
    (a : Valuation) : later.eval e a = earlier.eval e a :=
  h.founded.eval_mono hle he a

/-- The edge is in the store and stands for the given set of valuations. -/
structure Denotes (store : Store) (e : Edge) (P : Valuation → Prop) : Prop where
  has : store.Has e
  eval_iff : ∀ a, store.eval e a = true ↔ P a

theorem Has.denotes (h : store.Has e) : store.Denotes e fun a => store.eval e a = true :=
  ⟨h, fun _ => Iff.rfl⟩

theorem Denotes.congr {P Q : Valuation → Prop} (h : store.Denotes e P) (hPQ : ∀ a, P a ↔ Q a) :
    store.Denotes e Q :=
  ⟨h.has, fun a => (h.eval_iff a).trans (hPQ a)⟩

theorem Denotes.mono {P : Valuation → Prop} (h : earlier.Denotes e P) (hr : earlier.Founded)
    (hle : earlier ≤ later) : later.Denotes e P :=
  ⟨h.has.mono hle, fun a => by rw [hr.eval_mono hle h.has, h.eval_iff]⟩

theorem Denotes.eq_of_iff {f : Edge} {P Q : Valuation → Prop} (he : store.Denotes e P)
    (hf : store.Denotes f Q) (hr : store.Reduced) (hPQ : ∀ a, P a ↔ Q a) : e = f :=
  hr.eq_of_eval_eq he.has hf.has fun a =>
    Bool.eq_iff_iff.2 ((he.eval_iff a).trans ((hPQ a).trans (hf.eval_iff a).symm))

theorem Denotes.neg {P : Valuation → Prop} (h : store.Denotes e P) (hr : store.Founded) :
    store.Denotes (-e) fun a => ¬ P a :=
  ⟨h.has, fun a => by rw [hr.eval_neg h.has, ← h.eval_iff a]; simp⟩

theorem Founded.denotes_one (h : store.Founded) : store.Denotes .one fun _ => True :=
  ⟨h.has_one, fun _ => by simp⟩

theorem Founded.denotes_zero (h : store.Founded) : store.Denotes .zero fun _ => False :=
  ⟨h.has_zero, fun _ => by simp⟩

/-- The edges stand one by one for the sets that belong to the elements of a list. -/
def DenotesEach {α : Type} (store : Store) (P : α → Valuation → Prop) (xs : List α)
    (edges : List Edge) : Prop :=
  List.Forall₂ (fun x e => store.Denotes e (P x)) xs edges

section Each

variable {α : Type} {P : α → Valuation → Prop} {xs : List α} {edges : List Edge}

theorem DenotesEach.mono (h : earlier.DenotesEach P xs edges) (hr : earlier.Founded)
    (hle : earlier ≤ later) : later.DenotesEach P xs edges :=
  h.imp fun _ _ he => he.mono hr hle

theorem DenotesEach.congr {Q : α → Valuation → Prop} (h : store.DenotesEach P xs edges)
    (hPQ : ∀ x ∈ xs, ∀ a, P x a ↔ Q x a) : store.DenotesEach Q xs edges := by
  induction h with
  | nil => exact .nil
  | cons he _ ih =>
    obtain ⟨hhead, hrest⟩ := List.forall_mem_cons.1 hPQ
    exact .cons (Denotes.congr he hhead) (ih hrest)

/-- Everything in the second list is related to something in the first. -/
theorem exists_of_forall₂ {β : Type} {R : α → β → Prop} {ys : List β} (h : List.Forall₂ R xs ys) :
    ∀ y ∈ ys, ∃ x ∈ xs, R x y := by
  induction h with
  | nil => simp
  | @cons x y xs ys hxy _ ih =>
    refine List.forall_mem_cons.2 ⟨⟨x, List.mem_cons_self, hxy⟩, fun z hz => ?_⟩
    obtain ⟨w, hw, hwz⟩ := ih z hz
    exact ⟨w, List.mem_cons_of_mem _ hw, hwz⟩

theorem DenotesEach.exists_denotes (h : store.DenotesEach P xs edges) :
    ∀ e ∈ edges, ∃ x ∈ xs, store.Denotes e (P x) :=
  exists_of_forall₂ h

theorem DenotesEach.has (h : store.DenotesEach P xs edges) : ∀ e ∈ edges, store.Has e := by
  intro e he
  obtain ⟨x, -, hx⟩ := h.exists_denotes e he
  exact hx.has

open Classical in
/-- The values of the edges are the truth values of what they stand for. -/
theorem DenotesEach.map_eval (h : store.DenotesEach P xs edges) (a : Valuation) :
    (edges.map fun e => store.eval e a) = xs.map fun x => decide (P x a) := by
  induction h with
  | nil => rfl
  | cons he _ ih =>
    have hhead := Bool.eq_iff_iff.2 ((he.eval_iff a).trans decide_eq_true_iff.symm)
    rw [List.map_cons, List.map_cons, ih, hhead]

theorem DenotesEach.forall_iff (h : store.DenotesEach P xs edges) (a : Valuation) :
    (∀ e ∈ edges, store.eval e a = true) ↔ ∀ x ∈ xs, P x a := by
  induction h with
  | nil => simp
  | cons he _ ih => rw [List.forall_mem_cons, List.forall_mem_cons, he.eval_iff, ih]

theorem DenotesEach.exists_iff (h : store.DenotesEach P xs edges) (a : Valuation) :
    (∃ e ∈ edges, store.eval e a = true) ↔ ∃ x ∈ xs, P x a := by
  induction h with
  | nil => simp
  | cons he _ ih => rw [List.exists_mem_cons_iff, List.exists_mem_cons_iff, he.eval_iff, ih]

end Each

/-- The value of an if-then-else under a valuation. -/
def evalTriple (store : Store) (triple : Triple) (a : Valuation) : Bool :=
  if store.eval triple.condition a then store.eval triple.positive a
  else store.eval triple.negative a

/-- All three edges of a triple are in the store. -/
structure HasTriple (store : Store) (triple : Triple) : Prop where
  condition : store.Has triple.condition
  positive : store.Has triple.positive
  negative : store.Has triple.negative

theorem HasTriple.mono {triple : Triple} (h : earlier.HasTriple triple) (hle : earlier ≤ later) :
    later.HasTriple triple :=
  ⟨h.condition.mono hle, h.positive.mono hle, h.negative.mono hle⟩

theorem HasTriple.evalTriple_mono {triple : Triple} (h : earlier.HasTriple triple)
    (hr : earlier.Founded) (hle : earlier ≤ later) (a : Valuation) :
    later.evalTriple triple a = earlier.evalTriple triple a := by
  rw [evalTriple, evalTriple, hr.eval_mono hle h.condition, hr.eval_mono hle h.positive,
    hr.eval_mono hle h.negative]

/-- The edge stands for the if-then-else of a triple. -/
structure Computes (store : Store) (triple : Triple) (e : Edge) : Prop where
  operands : store.HasTriple triple
  result : store.Has e
  eval_eq : ∀ a, store.eval e a = store.evalTriple triple a

theorem Computes.mono {triple : Triple} (h : earlier.Computes triple e) (hr : earlier.Founded)
    (hle : earlier ≤ later) : later.Computes triple e :=
  ⟨h.operands.mono hle, h.result.mono hle, fun a => by
    rw [hr.eval_mono hle h.result, h.eval_eq, h.operands.evalTriple_mono hr hle]⟩

/-- A reduced store whose look-up finds every node and whose computed results are right. -/
structure Sound (store : Store) : Prop extends Reduced store where
  indexed : store.nodes.Indexed Node.key (· = .terminal)
  computed : ∀ (i : Nat) (triple : Triple) (e : Edge),
    store.computed.slots[i]? = some (some (triple, e)) →
    store.Computes triple e

/-- A founded store whose look-up finds every node and whose computed results are right. -/
structure Regular (store : Store) : Prop extends Founded store where
  indexed : store.nodes.Indexed Node.key (· = .terminal)
  computed : ∀ (i : Nat) (triple : Triple) (e : Edge),
    store.computed.slots[i]? = some (some (triple, e)) →
    store.Computes triple e

theorem Sound.regular (h : store.Sound) : store.Regular :=
  ⟨h.founded, h.indexed, h.computed⟩

/-- A notion of soundness of stores that asks for the order of the variables if it is strict. -/
class Soundness (sound : Store → Prop) where
  strict : Prop
  sound_iff : ∀ store, sound store ↔ store.Regular ∧ (strict → store.Ordered)

instance : Soundness Sound where
  strict := True
  sound_iff _ := ⟨fun h => ⟨h.regular, fun _ => h.ordered⟩,
    fun h => ⟨h.1.reduced (h.2 trivial), h.1.indexed, h.1.computed⟩⟩

instance : Soundness Regular where
  strict := False
  sound_iff _ := ⟨fun h => ⟨h, False.elim⟩, fun h => h.1⟩

namespace Soundness

variable {sound : Store → Prop} [Soundness sound]

theorem regular (hs : sound store) : store.Regular :=
  ((sound_iff store).1 hs).1

theorem founded (hs : sound store) : store.Founded :=
  (regular hs).toFounded

theorem ordered (hs : sound store) (h : strict sound) : store.Ordered :=
  ((sound_iff store).1 hs).2 h

theorem reduced_of_strict (hs : sound store) (h : strict sound) : store.Reduced :=
  (founded hs).reduced (ordered hs h)

end Soundness

open Soundness

section Steps

variable {sound : Store → Prop} [Soundness sound]

theorem le_of_nodes_eq (h : later.nodes = earlier.nodes) : earlier ≤ later := by
  intro i node hi
  rw [node?, h]
  exact hi

theorem node?_of_nodes_eq (h : later.nodes = store.nodes) (i : Nat) :
    later.node? i = store.node? i := by
  rw [node?, node?, h]

theorem Founded.of_nodes_eq (h : store.Founded) (hnodes : later.nodes = store.nodes) :
    later.Founded := by
  refine ⟨le_of_nodes_eq hnodes _ _ h.terminal, fun i node hi hn => ?_, fun i j node hi hj => ?_⟩
  · rw [node?_of_nodes_eq hnodes] at hn
    exact h.inner i node hi hn
  · rw [node?_of_nodes_eq hnodes] at hi hj
    exact h.unique i j node hi hj

theorem Ordered.of_nodes_eq (h : store.Ordered) (hnodes : later.nodes = store.nodes) :
    later.Ordered := by
  intro i node hi hn
  rw [node?_of_nodes_eq hnodes] at hn
  unfold Below Store.node
  simp only [node?_of_nodes_eq hnodes]
  exact h i node hi hn

/-- Computed results and messages may change freely as long as the results are right. -/
theorem sound_of_nodes_eq (hs : sound store) (hnodes : later.nodes = store.nodes)
    (hcomputed : ∀ (i : Nat) (triple : Triple) (e : Edge),
      later.computed.slots[i]? = some (some (triple, e)) →
      store.Computes triple e) : sound later := by
  have h := regular hs
  refine (sound_iff later).2 ⟨⟨h.toFounded.of_nodes_eq hnodes, hnodes ▸ h.indexed, ?_⟩, ?_⟩
  · exact fun i triple e hi => (hcomputed i triple e hi).mono h.toFounded (le_of_nodes_eq hnodes)
  · exact fun hstrict => (ordered hs hstrict).of_nodes_eq hnodes

theorem sound_note (hs : sound store) (level : Level) (message : Unit → String) :
    sound (store.note level message) :=
  sound_of_nodes_eq hs rfl (regular hs).computed

theorem le_note (store : Store) (level : Level) (message : Unit → String) :
    store ≤ store.note level message :=
  le_of_nodes_eq rfl

/-- A property of stores that messages do not matter to. -/
class Silent (sound : Store → Prop) : Prop where
  note : ∀ {store : Store} (level : Level) (message : Unit → String), sound store →
    sound (store.note level message)

instance : Silent sound :=
  ⟨fun level message hs => sound_note hs level message⟩

end Steps

section Push

/-- A node that may be added: a decision between two different edges of the store, with no mark on
the high edge. -/
structure Admits (store : Store) (node : Node) : Prop where
  var_ne_zero : node.var ≠ 0
  high_unmarked : node.high.negated = false
  low_ne_high : node.low ≠ node.high
  has_low : store.Has node.low
  has_high : store.Has node.high

theorem Admits.ne_terminal {node : Node} (h : store.Admits node) : node ≠ .terminal := by
  rintro rfl
  exact h.var_ne_zero rfl

/-- The later store is the first with a new node at the next position. -/
structure Adds (store : Store) (node : Node) (later : Store) : Prop where
  new : ∀ i, store.node? i ≠ some node
  values_eq : later.nodes.values = store.nodes.values.push node
  indexed : later.nodes.Indexed Node.key (· = .terminal)
  computed_eq : later.computed = store.computed

variable {node : Node}

theorem Adds.node?_eq (h : store.Adds node later) (i : Nat) :
    later.node? i = if i = store.nodeCount + 1 then some node else store.node? i := by
  have hpush : (⟨store.nodes.values.push node, later.nodes.buckets⟩ : UniqueTable Node).value? i =
      if i = store.nodeCount + 1 then some node else store.node? i :=
    UniqueTable.value?_push node i
  rw [← h.values_eq] at hpush
  exact hpush

theorem Adds.le (h : store.Adds node later) : store ≤ later := by
  intro i kept hi
  rw [h.node?_eq, if_neg, hi]
  rintro rfl
  have : 0 < store.nodeCount + 1 ∧ store.nodeCount + 1 ≤ store.nodeCount :=
    node?_isSome_iff.1 (Option.isSome_iff_exists.2 ⟨kept, hi⟩)
  omega

/-- A new node at the next position keeps a store founded. -/
theorem Adds.founded (hadds : store.Adds node later) (h : store.Founded)
    (hnode : store.Admits node) : later.Founded := by
  refine ⟨hadds.le _ _ h.terminal, fun i kept hi hkept => ?_, fun i j kept hi hj => ?_⟩
  · rw [hadds.node?_eq] at hkept
    split at hkept
    · next hnewest =>
        obtain rfl := Option.some.inj hkept
        subst hnewest
        exact ⟨hnode.1, hnode.2, hnode.3, hnode.has_low.1, hnode.has_high.1,
          Nat.lt_succ_of_le hnode.has_low.2, Nat.lt_succ_of_le hnode.has_high.2⟩
    · exact h.inner i kept hi hkept
  · rw [hadds.node?_eq] at hi hj
    split at hi <;> split at hj
    · omega
    · obtain rfl := Option.some.inj hi
      exact absurd hj (hadds.new j)
    · obtain rfl := Option.some.inj hj
      exact absurd hi (hadds.new i)
    · exact h.unique i j kept hi hj

theorem Adds.ordered (hadds : store.Adds node later) (ho : store.Ordered) (h : store.Founded)
    (hnode : store.Admits node)
    (hbelow : store.Below node.var node.low ∧ store.Below node.var node.high) : later.Ordered := by
  have hle := hadds.le
  intro i kept hi hkept
  rw [hadds.node?_eq] at hkept
  split at hkept
  · obtain rfl := Option.some.inj hkept
    exact ⟨(hnode.has_low.below_iff hle).2 hbelow.1, (hnode.has_high.below_iff hle).2 hbelow.2⟩
  · have w := h.inner i kept hi hkept
    have hin : 0 < i ∧ i ≤ store.nodeCount :=
      node?_isSome_iff.1 (Option.isSome_iff_exists.2 ⟨kept, hkept⟩)
    have hlow : store.Has kept.low := ⟨w.low_pos, by have := w.low_lt; omega⟩
    have hhigh : store.Has kept.high := ⟨w.high_pos, by have := w.high_lt; omega⟩
    exact ⟨(hlow.below_iff hle).2 (ho i kept hi hkept).1,
      (hhigh.below_iff hle).2 (ho i kept hi hkept).2⟩

/-- A new node at the next position keeps a store sound. -/
theorem Adds.sound {sound : Store → Prop} [Soundness sound] (hadds : store.Adds node later)
    (hs : sound store) (hnode : store.Admits node)
    (hbelow : strict sound → store.Below node.var node.low ∧ store.Below node.var node.high) :
    sound later := by
  have h := regular hs
  refine (sound_iff later).2
    ⟨⟨hadds.founded h.toFounded hnode, hadds.indexed, fun i triple e hi => ?_⟩, fun hstrict =>
      hadds.ordered (Soundness.ordered hs hstrict) h.toFounded hnode (hbelow hstrict)⟩
  rw [hadds.computed_eq] at hi
  exact (h.computed i triple e hi).mono h.toFounded hadds.le

end Push

end Store

namespace Diagram

open Store.Soundness

variable {α β : Type} {store : Store} {sound : Store → Prop}

/-- An answer as described, or a failure because all positions are in use. -/
def Meets (post : α → Store → Prop) : Except Failure α × Store → Prop
  | (.ok answer, later) => post answer later
  | (.error failure, later) => failure = .breach .storeFull ∧ Edge.positions ≤ later.nodeCount

/-- From the given store the operation reaches a sound one with all nodes kept, and with an outcome
as described. -/
def EnsuresIn (sound : Store → Prop) (op : DiagramM α) (store : Store)
    (post : α → Store → Prop) : Prop :=
  sound (op.run.run store).2 ∧ store ≤ (op.run.run store).2 ∧ Meets post (op.run.run store)

/-- What an operation ensures in stores whose variables are ordered. -/
abbrev Ensures (op : DiagramM α) (store : Store) (post : α → Store → Prop) : Prop :=
  EnsuresIn Store.Sound op store post

theorem ensures_pure (hs : sound store) {answer : α} {post : α → Store → Prop}
    (h : post answer store) : EnsuresIn sound (pure answer) store post :=
  ⟨hs, le_rfl, h⟩

/-- The steps of an operation are described one after the other. -/
theorem EnsuresIn.bind {op : DiagramM α} {next : α → DiagramM β} {mid : α → Store → Prop}
    {post : β → Store → Prop} (h : EnsuresIn sound op store mid)
    (hnext : ∀ answer later, sound later → store ≤ later → mid answer later →
      EnsuresIn sound (next answer) later post) : EnsuresIn sound (op >>= next) store post := by
  obtain ⟨hsound, hle, hmid⟩ := h
  unfold EnsuresIn
  rcases hrun : op.run.run store with ⟨failure | answer, later⟩
  · rw [hrun] at hsound hle hmid
    rw [run_bind_of_error hrun]
    exact ⟨hsound, hle, hmid⟩
  · rw [hrun] at hsound hle hmid
    rw [run_bind_of_ok hrun]
    obtain ⟨hsound', hle', hpost⟩ := hnext answer later hsound hle hmid
    exact ⟨hsound', hle.trans hle', hpost⟩

theorem EnsuresIn.weaken {op : DiagramM α} {strong weak : α → Store → Prop}
    (h : EnsuresIn sound op store strong)
    (hw : ∀ answer later, sound later → store ≤ later → strong answer later → weak answer later) :
    EnsuresIn sound op store weak := by
  obtain ⟨hsound, hle, hpost⟩ := h
  refine ⟨hsound, hle, ?_⟩
  generalize op.run.run store = outcome at hsound hle hpost
  obtain ⟨answer | answer, later⟩ := outcome
  · exact hpost
  · exact hw answer later hsound hle hpost

theorem EnsuresIn.and {op : DiagramM α} {post more : α → Store → Prop}
    (h : EnsuresIn sound op store post) (hmore : EnsuresIn sound op store more) :
    EnsuresIn sound op store fun answer later => post answer later ∧ more answer later := by
  obtain ⟨hsound, hle, hpost⟩ := h
  obtain ⟨-, -, hmore⟩ := hmore
  refine ⟨hsound, hle, ?_⟩
  generalize op.run.run store = outcome at hpost hmore
  obtain ⟨answer | answer, later⟩ := outcome
  · exact hpost
  · exact ⟨hpost, hmore⟩

theorem EnsuresIn.map {op : DiagramM α} {f : α → β} {post : β → Store → Prop}
    (h : EnsuresIn sound op store fun answer later => post (f answer) later) :
    EnsuresIn sound (f <$> op) store post := by
  rw [← bind_pure_comp]
  exact h.bind fun _ _ hs _ hpost => ensures_pure hs hpost

/-- What is known of an answer that was given. -/
theorem EnsuresIn.of_run {op : DiagramM α} {post : α → Store → Prop}
    (h : EnsuresIn sound op store post) {answer : α} {later : Store}
    (hrun : op.run.run store = (.ok answer, later)) :
    sound later ∧ store ≤ later ∧ post answer later := by
  unfold EnsuresIn at h
  rwa [hrun] at h

/-- While fewer than all positions are in use a node can be added. -/
def HasRoom (store : Store) : Prop :=
  store.nodeCount < Edge.positions

/-- What an operation delivers in stores whose variables are ordered. -/
abbrev Delivers (op : DiagramM α) (store : Store) (post : α → Store → Prop) : Prop :=
  PlanningGame.Delivers Store.Sound HasRoom op store post

/-- The failure of an operation when all positions are in use. -/
def IsFull (failure : Failure) (later : Store) : Prop :=
  failure = .breach .storeFull ∧ Edge.positions ≤ later.nodeCount

theorem EnsuresIn.concludes {op : DiagramM α} {post : α → Store → Prop}
    {fails : Failure → Store → Prop} (h : EnsuresIn sound op store post)
    (hfails : ∀ failure later, IsFull failure later → fails failure later) :
    Concludes sound op store post fails := by
  obtain ⟨hsound, hle, hpost⟩ := h
  refine ⟨hsound, hle, fun answer heq => ?_, fun failure heq => ?_⟩
  · generalize op.run.run store = outcome at heq hpost
    obtain ⟨failure | given, later⟩ := outcome
    · exact absurd heq (by simp)
    · obtain rfl := Except.ok.inj heq
      exact hpost
  · generalize op.run.run store = outcome at heq hpost
    obtain ⟨given | answer, later⟩ := outcome
    · obtain rfl := Except.error.inj heq
      exact hfails _ _ hpost
    · exact absurd heq (by simp)

theorem EnsuresIn.delivers {op : DiagramM α} {post : α → Store → Prop}
    (h : EnsuresIn sound op store post) : PlanningGame.Delivers sound HasRoom op store post :=
  delivers_iff_concludes.2 (h.concludes fun _ _ hfull => Nat.not_lt.2 hfull.2)

/-- While fewer than all positions are in use an answer is given. -/
theorem EnsuresIn.exists_run {op : DiagramM α} {post : α → Store → Prop}
    (h : EnsuresIn sound op store post) (hroom : HasRoom (op.run.run store).2) :
    ∃ answer later, op.run.run store = (.ok answer, later) ∧ post answer later :=
  h.delivers.exists_run hroom

/-- If the operation gives an answer then it is as described, in a sound store with all nodes
kept. -/
abbrev Yields (op : DiagramM α) (store : Store) (post : α → Store → Prop) : Prop :=
  PlanningGame.Yields Store.Sound op store post

theorem EnsuresIn.yields {op : DiagramM α} {post : α → Store → Prop}
    (h : EnsuresIn sound op store post) : PlanningGame.Yields sound op store post :=
  fun _ _ hrun => h.of_run hrun

theorem ensures_current (hs : sound store) :
    EnsuresIn sound current store fun now later => now = store ∧ later = store :=
  ⟨hs, le_rfl, rfl, rfl⟩

theorem ensures_note [Store.Silent sound] (hs : sound store) (level : Level)
    (message : Unit → String) {post : Unit → Store → Prop}
    (h : ∀ later, later.nodes = store.nodes → post () later) :
    EnsuresIn sound (note level message) store post :=
  ⟨Store.Silent.note level message hs, store.le_note level message, h _ rfl⟩

variable [Store.Soundness sound]

/-- Adding a message in front of an operation changes nothing. -/
theorem ensures_note_bind (hs : sound store) (level : Level) (message : Unit → String)
    {next : Unit → DiagramM β} {post : β → Store → Prop}
    (h : ∀ later, sound later → store ≤ later → EnsuresIn sound (next ()) later post) :
    EnsuresIn sound (note level message >>= next) store post := by
  have key : EnsuresIn sound (note level message) store fun _ _ => True :=
    ensures_note hs level message fun _ _ => trivial
  exact key.bind fun _ later hs hle _ => h later hs hle

theorem concludes_note_bind {fails : Failure → Store → Prop} (hs : sound store) (level : Level)
    (message : Unit → String) {next : Unit → DiagramM β} {post : β → Store → Prop}
    (h : ∀ later, sound later → store ≤ later → Concludes sound (next ()) later post fails) :
    Concludes sound (note level message >>= next) store post fails := by
  have key : Concludes sound (note level message) store (fun _ _ => True) fails :=
    ⟨Store.sound_note hs level message, store.le_note level message, fun _ _ => trivial,
      fun failure heq => absurd (show (Except.ok () : Except Failure Unit) = .error failure from heq)
        (by simp)⟩
  exact key.bind fun _ later hs hle _ => h later hs hle

theorem meets_edgeTo {i : Nat} {node : Node} (hi : store.node? i = some node) :
    Meets (fun e later => e.negated = false ∧ later.node? e.index = some node)
      (Store.edgeTo i, store) := by
  unfold Store.edgeTo
  split
  · exact ⟨rfl, hi⟩
  · next h =>
      have : 0 < i ∧ i ≤ store.nodeCount :=
        Store.node?_isSome_iff.1 (Option.isSome_iff_exists.2 ⟨node, hi⟩)
      exact ⟨rfl, by omega⟩

theorem intern_of_find? {node : Node} {i : Nat} (h : store.nodes.find? Node.key node = some i) :
    store.intern node = (Store.edgeTo i, store) := by
  simp [Store.intern, h]

/-- A new node stands at the next position, after which the buckets may double. -/
theorem intern_of_not_find? {node : Node} (hnode : node ≠ .terminal)
    (hindexed : store.nodes.Indexed Node.key (· = .terminal))
    (h : store.nodes.find? Node.key node = none) :
    ∃ later, store.intern node = (Store.edgeTo (store.nodeCount + 1), later) ∧
      store.Adds node later := by
  have hnew := hindexed.not_mem_of_find? hnode h
  simp only [Store.intern, h, UniqueTable.insert_size]
  split
  · exact ⟨_, rfl, hnew, rfl, (hindexed.insert node).grow, rfl⟩
  · exact ⟨_, rfl, hnew, rfl, hindexed.insert node, rfl⟩

/-- The edge to a node that may be added is unmarked and leads to the node, whether it was there
before, was added, or was added and made the buckets double. -/
theorem ensures_intern (hs : sound store) {node : Node} (hnode : store.Admits node)
    (hbelow : strict sound → store.Below node.var node.low ∧ store.Below node.var node.high) :
    EnsuresIn sound (ExceptT.mk fun store => store.intern node) store
      fun e later => e.negated = false ∧ later.node? e.index = some node := by
  change sound (store.intern node).2 ∧ store ≤ (store.intern node).2 ∧
    Meets _ (store.intern node)
  cases hfind : store.nodes.find? Node.key node with
  | some i =>
    rw [intern_of_find? hfind]
    exact ⟨hs, le_rfl, meets_edgeTo (UniqueTable.value?_of_find? hfind)⟩
  | none =>
    obtain ⟨later, hintern, hadds⟩ :=
      intern_of_not_find? hnode.ne_terminal (regular hs).indexed hfind
    rw [hintern]
    exact ⟨hadds.sound hs hnode hbelow, hadds.le,
      meets_edgeTo ((hadds.node?_eq _).trans (if_pos rfl))⟩

theorem index_ne_one_of_node? {later : Store} (h : later.Founded) {node : Node}
    (hnode : node ≠ .terminal) {e : Edge} (he : later.node? e.index = some node) : e.index ≠ 1 := by
  intro hi
  rw [hi, h.terminal, Option.some.injEq] at he
  exact hnode he.symm

/-- The edge to a decision between two different edges, or that edge if they are equal. -/
theorem ensures_reduced (hs : sound store) {v : Var} {low high : Edge} {P Q : Valuation → Prop}
    (hv : v ≠ 0) (hmark : high.negated = false) (hlow : store.Denotes low P)
    (hhigh : store.Denotes high Q)
    (hbelow : strict sound → store.Below v low ∧ store.Below v high) :
    EnsuresIn sound (reduced v low high) store
      fun e later => later.Denotes e fun a => if a v then Q a else P a := by
  unfold reduced
  split
  · next heq =>
      subst heq
      refine ensures_pure hs (hlow.congr fun a => ?_)
      have : P a ↔ Q a := (hlow.eval_iff a).symm.trans (hhigh.eval_iff a)
      split <;> simp [this]
  · next hne =>
      have hnode : store.Admits ⟨v, low, high⟩ := ⟨hv, hmark, hne, hlow.has, hhigh.has⟩
      refine (ensures_intern hs hnode hbelow).weaken fun e later hs' hle ⟨hunmarked, he⟩ => ?_
      have hhas := Store.has_of_node? he
      have hn := Store.node_of_node? he
      have hfounded := founded hs'
      have hi := index_ne_one_of_node? hfounded hnode.ne_terminal he
      refine ⟨hhas, fun a => ?_⟩
      rw [hfounded.eval_inner hhas hi, Store.low, Store.high, hn, hunmarked]
      have hl := (hlow.mono (founded hs) hle).eval_iff a
      have hh := (hhigh.mono (founded hs) hle).eval_iff a
      split <;> simp_all

theorem ensures_branch (hs : sound store) {v : Var} {low high : Edge} {P Q : Valuation → Prop}
    (hv : v ≠ 0) (hlow : store.Denotes low P) (hhigh : store.Denotes high Q)
    (hbelow : strict sound → store.Below v low ∧ store.Below v high) :
    EnsuresIn sound (branch v low high) store
      fun e later => later.Denotes e fun a => if a v then Q a else P a := by
  unfold branch
  rw [if_neg hv]
  split
  · next hmark =>
      refine (ensures_reduced hs hv (by simp [hmark]) (hlow.neg (founded hs))
        (hhigh.neg (founded hs)) hbelow).bind fun e later hs' _ he => ensures_pure hs' ?_
      refine (he.neg (founded hs')).congr fun a => ?_
      split <;> simp
  · next hmark => exact ensures_reduced hs hv (by simpa using hmark) hlow hhigh hbelow

/-- A decision between two different edges tests its variable, even if the edges have one
function. -/
theorem ensures_branch_inner (hs : sound store) {v : Var} {low high : Edge} (hv : v ≠ 0)
    (hlow : store.Has low) (hhigh : store.Has high) (hne : low ≠ high)
    (hbelow : strict sound → store.Below v low ∧ store.Below v high) :
    EnsuresIn sound (branch v low high) store
      fun e later => e.index ≠ 1 ∧ (later.node e.index).var = v := by
  have key : ∀ low high : Edge, high.negated = false → store.Has low → store.Has high →
      low ≠ high → (strict sound → store.Below v low ∧ store.Below v high) →
      EnsuresIn sound (reduced v low high) store
        fun e later => e.index ≠ 1 ∧ (later.node e.index).var = v := by
    intro low high hmark hlow hhigh hne hbelow
    unfold reduced
    rw [if_neg hne]
    have hnode : store.Admits ⟨v, low, high⟩ := ⟨hv, hmark, hne, hlow, hhigh⟩
    exact (ensures_intern hs hnode hbelow).weaken fun e later hs' _ he =>
      ⟨index_ne_one_of_node? (founded hs') hnode.ne_terminal he.2,
        congrArg Node.var (Store.node_of_node? he.2)⟩
  unfold branch
  rw [if_neg hv]
  split
  · next hmark =>
      exact (key (-low) (-high) (by simp [hmark]) hlow hhigh (neg_injective.ne hne) hbelow).bind
        fun e later hs' _ he => ensures_pure hs' he
  · next hmark => exact key low high (by simpa using hmark) hlow hhigh hne hbelow

theorem ensures_literal (hs : sound store) {v : Var} (hv : v ≠ 0) :
    EnsuresIn sound (literal v) store fun e later => later.Denotes e fun a => a v = true :=
  (ensures_branch hs hv (founded hs).denotes_zero (founded hs).denotes_one
    fun _ => ⟨.inl rfl, .inl rfl⟩).weaken fun _ _ _ _ he => he.congr fun a => by split <;> simp_all

/-- A literal tests its variable. -/
theorem ensures_literal_var (hs : sound store) {v : Var} (hv : v ≠ 0) :
    EnsuresIn sound (literal v) store fun e later => (later.node e.index).var = v :=
  (ensures_branch_inner hs hv (founded hs).has_zero (founded hs).has_one (by decide)
    fun _ => ⟨.inl rfl, .inl rfl⟩).weaken fun _ _ _ _ he => he.2

/-- If the operation gives an answer then the condition is met. -/
abbrev Needs (op : DiagramM α) (p : Prop) : Prop :=
  PlanningGame.Needs (fun _ => True) op p

theorem needs_true (op : DiagramM α) : Needs op True :=
  fun _ _ _ _ _ => ⟨trivial, trivial⟩

theorem needs_branch (v : Var) (low high : Edge) :
    Needs (branch v low high) (v ≠ 0) := by
  unfold branch
  split
  · exact needs_throw _
  · next hv => exact fun _ _ _ _ _ => ⟨trivial, hv⟩

end Diagram

namespace Store

variable {store : Store} {e low high : Edge} {v : Var}

/-- The second and the third edge are the branches of the first by a variable that is not below
its top. -/
structure Splits (store : Store) (v : Var) (e low high : Edge) : Prop where
  has_low : store.Has low
  has_high : store.Has high
  low_below : store.Ordered → store.Below v low
  high_below : store.Ordered → store.Below v high
  low_le : low.index ≤ e.index
  high_le : high.index ≤ e.index
  eval_eq : ∀ a, store.eval e a = if a v then store.eval high a else store.eval low a

theorem level_of_inner (hi : e.index ≠ 1) : store.level e = (store.node e.index).var := by
  simp [level, Edge.isTerminal, hi]

theorem level_of_isTerminal (hi : e.index = 1) : store.level e = lastLevel := by
  simp [level, Edge.isTerminal, hi]

theorem below_of_lt_level (h : v < store.level e) : store.Below v e := by
  by_cases hi : e.index = 1
  · exact .inl hi
  · rw [level_of_inner hi] at h
    exact .inr h

theorem Founded.level_ne_zero (h : store.Founded) (he : store.Has e) : store.level e ≠ 0 := by
  by_cases hi : e.index = 1
  · rw [level_of_isTerminal hi]
    decide
  · rw [level_of_inner hi]
    exact (h.decides he hi).var_ne_zero

theorem Has.splits_of_lt (he : store.Has e) (hv : v < store.level e) :
    store.Splits v e e e :=
  ⟨he, he, fun _ => below_of_lt_level hv, fun _ => below_of_lt_level hv, le_rfl, le_rfl,
    fun a => by simp⟩

theorem Founded.splits_level (h : store.Founded) (he : store.Has e) :
    store.Splits (store.level e) e (store.low e) (store.high e) := by
  by_cases hi : e.index = 1
  · rw [h.low_of_isTerminal hi, h.high_of_isTerminal hi]
    exact ⟨he, he, fun _ => .inl hi, fun _ => .inl hi, le_rfl, le_rfl, fun a => by simp⟩
  · rw [level_of_inner hi]
    exact ⟨h.has_low he, h.has_high he, fun ho => (h.reduced ho).low_below he hi,
      fun ho => (h.reduced ho).high_below he hi, (h.low_lt he hi).le, (h.high_lt he hi).le,
      fun a => h.eval_inner he hi⟩

/-- Cofactors exist for every variable that is not below the top, and they are smaller if it is the
top of an inner node. -/
theorem Founded.cofactors_eq (h : store.Founded) (he : store.Has e) (hv : v ≠ 0)
    (hle : v ≤ store.level e) :
    ∃ low high, store.cofactors e v = .ok (low, high) ∧ store.Splits v e low high ∧
      (e.index ≠ 1 → v = store.level e → low.index < e.index ∧ high.index < e.index) := by
  unfold cofactors
  rw [if_neg hv]
  by_cases hlt : v < store.level e
  · refine ⟨e, e, if_pos hlt, he.splits_of_lt hlt, fun _ heq => ?_⟩
    exact absurd heq (UInt32.ne_of_lt hlt)
  · have heq : v = store.level e := UInt32.le_antisymm hle (UInt32.not_lt.1 hlt)
    refine ⟨store.low e, store.high e, by rw [if_neg hlt, if_pos heq], heq ▸ h.splits_level he,
      fun hi _ => ⟨h.low_lt he hi, h.high_lt he hi⟩⟩

end Store

end PlanningGame
