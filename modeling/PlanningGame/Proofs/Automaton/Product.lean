import Mathlib
import PlanningGame.Proofs.Automaton.Basic
import PlanningGame.Proofs.Diagram.Support
import PlanningGame.Proofs.Diagram.Ascending

/-!
# Products of automata

A product evaluates the diagrams of each part with the states of all parts assigned. What a part
reads is its own state and the letters, as long as it mentions no state variable of another part, so
in each step the product moves every part as the part moves by itself. By induction on the word, its
state is that of all parts one after the other.
-/
namespace PlanningGame

namespace Automaton

open Manager Store.Soundness

variable {store later : Store} {manager : Manager} {automata : List Automaton}
  {automaton product a b : Automaton} {states nexts : List (List Bool)} {word : List Valuation}
  {letters others : Valuation} {v : Var}

/-- The state after a word. -/
def after (automaton : Automaton) (store : Store) (word : List Valuation) :
    Except Error (List Bool) :=
  word.foldlM (automaton.step store) automaton.initial

/-- A diagram of the automaton tests the variable. -/
def Mentions (store : Store) (automaton : Automaton) (v : Var) : Prop :=
  ∃ e ∈ automaton.finals :: automaton.next, v ∈ store.support e

/-- Neither of two automata mentions a state variable of the other one. -/
def Independent (store : Store) (a b : Automaton) : Prop :=
  (∀ v ∈ b.stateVars, ¬ a.Mentions store v) ∧ ∀ v ∈ a.stateVars, ¬ b.Mentions store v

/-- The automaton runs on a registered block, with an initial and a next value for each state
variable, and its diagrams lie in the store. -/
structure Mounted (manager : Manager) (automaton : Automaton) : Prop where
  block : ∃ labels, manager.registry.block? automaton.block = some ⟨automaton.stateVars, labels⟩
  initial_length : automaton.initial.length = automaton.stateVars.length
  next_length : automaton.next.length = automaton.stateVars.length
  has : ∀ e ∈ automaton.finals :: automaton.next, manager.store.Has e

theorem after_append_singleton (automaton : Automaton) (store : Store) (word : List Valuation)
    (letters : Valuation) :
    automaton.after store (word ++ [letters]) =
      automaton.after store word >>= fun s => automaton.step store s letters := by
  simp [after, List.foldlM_append]

/-- An automaton whose diagrams are in a store reads words there as it does in any later one. -/
theorem after_mono (hr : store.Founded) (hle : store ≤ later)
    (hnext : ∀ e ∈ automaton.next, store.Has e) (word : List Valuation) :
    automaton.after later word = automaton.after store word := by
  have hstep : automaton.step later = automaton.step store :=
    funext fun s => funext fun letters => step_mono hr hle hnext s letters
  rw [after, after, hstep]

theorem satisfies_mono {e : Edge} (hr : store.Founded) (hle : store ≤ later) (he : store.Has e)
    (s : List Bool) : automaton.satisfies later e s = automaton.satisfies store e s :=
  hr.eval_mono hle he _

theorem mentions_iff_of_le (hr : store.Founded) (hle : store ≤ later)
    (hhas : ∀ e ∈ automaton.finals :: automaton.next, store.Has e) :
    automaton.Mentions later v ↔ automaton.Mentions store v :=
  exists_congr fun e => and_congr_right fun he => hr.mem_support_iff_of_le hle (hhas e he)

section Frames

variable (hr : store.Founded)
include hr

/-- A diagram of an automaton is read in the same way by two valuations that agree on what the
automaton mentions. -/
theorem eval_congr_of_mentions (hhas : ∀ e ∈ automaton.finals :: automaton.next, store.Has e)
    (hagree : ∀ v, automaton.Mentions store v → letters v = others v) :
    ∀ e ∈ automaton.finals :: automaton.next, store.eval e letters = store.eval e others :=
  fun e he => hr.eval_congr (hhas e he) fun v hv => hagree v ⟨e, he, hv⟩

/-- Under the states of all parts, each part reads its own state. By induction on the parts: the
states before a part are letters to it that it does not mention, and those after it do not replace
its own. -/
theorem forall₂_eval (letters : Valuation)
    (hhas : ∀ a ∈ automata, ∀ e ∈ a.finals :: a.next, store.Has e)
    (hapart : automata.Pairwise (Independent store))
    (hlength : List.Forall₂ (fun a s => s.length = a.stateVars.length) automata states)
    (hagree : ∀ a ∈ automata, ∀ v, a.Mentions store v → others v = letters v) :
    List.Forall₂ (fun a s => ∀ e ∈ a.finals :: a.next,
      store.eval e (others.assign (automata.flatMap (·.stateVars)) states.flatten) =
        store.eval e (a.valuation s letters)) automata states := by
  induction hlength generalizing others with
  | nil => exact .nil
  | @cons a s rest states hs _ ih =>
    obtain ⟨hhead, htail⟩ := List.forall_mem_cons.1 hagree
    obtain ⟨hhasHead, hhasTail⟩ := List.forall_mem_cons.1 hhas
    obtain ⟨hfirst, hrest⟩ := List.pairwise_cons.1 hapart
    rw [List.flatMap_cons, List.flatten_cons, Valuation.assign_append others hs]
    refine .cons (eval_congr_of_mentions hr hhasHead fun v hv => ?_)
      (ih hhasTail hrest fun b hb v hv => ?_)
    · have hv' : v ∉ rest.flatMap (·.stateVars) := by
        rw [List.mem_flatMap]
        rintro ⟨b, hb, hmem⟩
        exact (hfirst b hb).1 v hmem hv
      rw [Valuation.assign_of_not_mem hv']
      exact Valuation.assign_congr (hhead v hv) a.stateVars s
    · rw [Valuation.assign_of_not_mem fun hmem => (hfirst b hb).2 v hmem hv]
      exact htail b hb v hv

end Frames

/-- An automaton that is put together from others. -/
structure Joined (store : Store) (automata : List Automaton) (product : Automaton) : Prop where
  stateVars_eq : product.stateVars = automata.flatMap (·.stateVars)
  initial_eq : product.initial = automata.flatMap (·.initial)
  next_eq : product.next = automata.flatMap (·.next)
  finals : store.Denotes product.finals fun a => ∀ part ∈ automata, store.eval part.finals a = true

section Creation

variable {sound : Store → Prop} [Store.Soundness sound]

/-- The blocks of the parts are found, and put together they have the variables of all parts. -/
theorem exists_blocks (hmounted : ∀ a ∈ automata, a.Mounted manager) :
    ∃ blocks, manager.registry.findBlocks? (automata.map (·.block)) = some blocks ∧
      blocks.flatMap (·.vars) = automata.flatMap (·.stateVars) := by
  induction automata with
  | nil => exact ⟨[], rfl, rfl⟩
  | cons a rest ih =>
    obtain ⟨hhead, htail⟩ := List.forall_mem_cons.1 hmounted
    obtain ⟨blocks, hblocks, hvars⟩ := ih htail
    obtain ⟨labels, hblock⟩ := hhead.block
    unfold Registry.findBlocks? at hblocks ⊢
    refine ⟨⟨a.stateVars, labels⟩ :: blocks, ?_, ?_⟩
    · rw [List.map_cons, List.mapM_cons, hblock, hblocks]
      rfl
    · rw [List.flatMap_cons, List.flatMap_cons, hvars]

theorem length_flatMap_eq {α β γ : Type} {l : List α} {f : α → List β} {g : α → List γ}
    (h : ∀ a ∈ l, (f a).length = (g a).length) : (l.flatMap f).length = (l.flatMap g).length := by
  rw [List.length_flatMap, List.length_flatMap, List.map_congr_left h]

theorem answers_product (hs : sound manager.store) (hne : automata ≠ [])
    (hmounted : ∀ a ∈ automata, a.Mounted manager) :
    Answers (fun m : Manager => sound m.store) (Automaton.product automata) manager
      fun product later => Joined later.store automata product := by
  obtain ⟨blocks, hblocks, hvars⟩ := exists_blocks hmounted
  have hnewBlock : Answers (fun m : Manager => sound m.store)
      (newProductBlock (automata.map (·.block))) manager fun id later =>
        later.registry.block? id = some (Block.concat blocks) :=
    ⟨completes_newProductBlock hblocks,
      (yields_newProductBlock hs hblocks).weaken fun _ _ _ _ h => h.2⟩
  unfold Automaton.product
  rw [if_neg (by simpa using hne)]
  refine hnewBlock.bind fun id m₁ hs₁ hle₁ hblock => ?_
  have hm₁ : StandsIn sound m₁.registry m₁ := ⟨hs₁, rfl⟩
  have hfinals : ∀ m : Manager, m₁ ≤ m → ∀ e ∈ automata.map (·.finals), m.store.Has e := by
    intro m hle e he
    obtain ⟨a, ha, rfl⟩ := List.mem_map.1 he
    exact ((hmounted a ha).has _ List.mem_cons_self).mono (hle₁.trans hle).1
  suffices key : Answers (StandsIn sound m₁.registry) _ m₁ fun product later =>
      Joined later.store automata product from
    ⟨key.completes, yields_of_stands key.yields fun _ _ _ _ h => h⟩
  refine answers_note_bind hm₁ _ _ fun m₂ hm₂ hle₂ => ?_
  refine (answers_lift hm₂ (Diagram.ensures_conjAll hm₂.sound (hfinals m₂ hle₂)).answers).bind
    fun finals m₃ hm₃ hle₃ hdenotes => ?_
  have hinitial : (automata.flatMap (·.initial)).length = (Block.concat blocks).vars.length := by
    rw [Block.vars_concat, hvars]
    exact length_flatMap_eq fun a ha => (hmounted a ha).initial_length
  have hnext : (automata.flatMap (·.next)).length = (Block.concat blocks).vars.length := by
    rw [Block.vars_concat, hvars]
    exact length_flatMap_eq fun a ha => (hmounted a ha).next_length
  have hcreate : Answers (StandsIn sound m₁.registry)
      (create id (automata.flatMap (·.initial)) (automata.flatMap (·.next)) finals) m₃ _ :=
    ⟨completes_create hm₃ hblock hinitial hnext finals, yields_create hm₃ hblock _ _ _⟩
  refine hcreate.bind fun product m₄ hm₄ hle₄ ⟨hproduct, _, _⟩ => answers_pure hm₄ ?_
  subst hproduct
  refine ⟨(Block.vars_concat blocks).trans hvars, rfl, rfl, ?_⟩
  refine (hdenotes.mono (founded hm₃.sound) hle₄.1).congr fun a => ?_
  rw [List.forall_mem_map]
  refine forall₂_congr fun part hpart => ?_
  rw [(founded hm₂.sound).eval_mono (hle₃.trans hle₄).1 (hfinals m₂ hle₂ _
    (List.mem_map_of_mem hpart))]

end Creation

/-- Two relations between lists are the same if they agree on the members of the first list. -/
theorem forall₂_congr_of_mem {α β : Type} {R S : α → β → Prop} {l : List α} {others : List β}
    (h : ∀ a ∈ l, ∀ b, R a b ↔ S a b) : List.Forall₂ R l others ↔ List.Forall₂ S l others := by
  constructor <;> intro hall
  · exact ((List.forall₂_and_left l others).2 ⟨h, hall⟩).imp fun _ b hab => (hab.1 b).1 hab.2
  · exact ((List.forall₂_and_left l others).2 ⟨h, hall⟩).imp fun _ b hab => (hab.1 b).2 hab.2

section Words

/-- Every part makes its own step. -/
theorem exists_moves {P : Automaton → List Bool → Prop} {joint : Valuation}
    (hstates : List.Forall₂ P automata states)
    (hreads : List.Forall₂ (fun a s => ∀ e ∈ a.finals :: a.next,
      store.eval e joint = store.eval e (a.valuation s letters)) automata states) :
    ∃ nexts, List.Forall₂ (fun a t => ∃ s, P a s ∧
        t = a.next.map fun e => store.eval e (a.valuation s letters)) automata nexts ∧
      (automata.flatMap (·.next)).map (store.eval · joint) = nexts.flatten := by
  induction hstates with
  | nil => exact ⟨[], .nil, rfl⟩
  | @cons a s rest states hs _ ih =>
    obtain ⟨hhead, htail⟩ := List.forall₂_cons.1 hreads
    obtain ⟨nexts, hnexts, hflat⟩ := ih htail
    refine ⟨_ :: nexts, .cons ⟨s, hs, rfl⟩ hnexts, ?_⟩
    rw [List.flatMap_cons, List.map_append, hflat, List.flatten_cons]
    exact congrArg (· ++ _) (List.map_congr_left fun e he => hhead e (List.mem_cons_of_mem _ he))

theorem forall_finals_iff {joint : Valuation}
    (hreads : List.Forall₂ (fun a s => ∀ e ∈ a.finals :: a.next,
      store.eval e joint = store.eval e (a.valuation s letters)) automata states) :
    (∀ a ∈ automata, store.eval a.finals joint = true) ↔
      List.Forall₂ (fun a s => store.eval a.finals (a.valuation s letters) = true) automata
        states := by
  induction hreads with
  | nil => simp
  | cons hhead _ ih =>
    rw [List.forall_mem_cons, List.forall₂_cons, ih, hhead _ List.mem_cons_self]

theorem length_flatten_eq {α : Type} {f : Automaton → List α}
    (h : List.Forall₂ (fun a s => s.length = (f a).length) automata states) :
    states.flatten.length = (automata.flatMap f).length := by
  induction h with
  | nil => rfl
  | cons hhead _ ih => simp [hhead, ih]

variable (hr : store.Founded) (hhas : ∀ a ∈ automata, ∀ e ∈ a.finals :: a.next, store.Has e)
  (hapart : automata.Pairwise (Independent store)) (h : Joined store automata product)
include hr hhas hapart h

theorem Joined.satisfies_finals_iff
    (hlength : List.Forall₂ (fun a s => s.length = a.stateVars.length) automata states) :
    product.satisfies store product.finals states.flatten = true ↔
      List.Forall₂ (fun a s => a.satisfies store a.finals s = true) automata states := by
  have hreads := forall₂_eval hr (fun _ => false) hhas hapart hlength fun _ _ _ _ => rfl
  rw [satisfies, h.finals.eval_iff, valuation, h.stateVars_eq]
  exact forall_finals_iff hreads

/-- After every word the state of the product is that of all parts, by induction on the word from
its end. -/
theorem Joined.exists_after (hinitial : ∀ a ∈ automata, a.initial.length = a.stateVars.length)
    (hnext : ∀ a ∈ automata, a.next.length = a.stateVars.length) (word : List Valuation) :
    ∃ states, List.Forall₂ (fun a s => a.after store word = .ok s ∧
        s.length = a.stateVars.length) automata states ∧
      product.after store word = .ok states.flatten := by
  induction word using List.reverseRecOn with
  | nil =>
    refine ⟨automata.map (·.initial), List.forall₂_map_right_iff.2 (List.forall₂_same.2
      fun a ha => ⟨rfl, hinitial a ha⟩), ?_⟩
    rw [← List.flatMap_def, ← h.initial_eq]
    rfl
  | append_singleton word letters ih =>
    obtain ⟨states, hstates, hproduct⟩ := ih
    have hlength := hstates.imp fun _ _ hs => hs.2
    have hreads := forall₂_eval hr letters hhas hapart hlength fun _ _ _ _ => rfl
    obtain ⟨nexts, hnexts, hflat⟩ := exists_moves hstates hreads
    refine ⟨nexts, ((List.forall₂_and_left automata nexts).2 ⟨fun _ ha => ha, hnexts⟩).imp ?_, ?_⟩
    · rintro a t ⟨ha, s, ⟨hafter, hs⟩, rfl⟩
      refine ⟨?_, by rw [List.length_map, hnext a ha]⟩
      rw [after_append_singleton, hafter]
      exact if_pos (hs.trans (hinitial a ha).symm)
    · have hfits : states.flatten.length = product.initial.length := by
        rw [h.initial_eq, length_flatten_eq hlength]
        exact length_flatMap_eq fun a ha => (hinitial a ha).symm
      rw [after_append_singleton, hproduct, ← hflat, ← h.next_eq, ← h.stateVars_eq]
      exact if_pos hfits

end Words

/-- The diagrams of three variables. -/
def threeLiterals : Session :=
  (((Session.start .blank).perform (.literal 1)).perform (.literal 2)).perform (.literal 3)

/-- A variable that is turned over in each step. -/
def swinging : Automaton :=
  { block := ⟨0⟩, stateVars := [1], initial := [false], next := [.ofIndex 2 true]
    finals := .ofIndex 2 false }

/-- A variable that keeps the last letter. -/
def recording : Automaton :=
  { block := ⟨1⟩, stateVars := [2], initial := [false], next := [.ofIndex 4 false]
    finals := .ofIndex 3 false }

/-- The manager with both automata. -/
def pairManager : Manager :=
  { store := threeLiterals.store
    registry :=
      { declarations := #[⟨"x", .state ⟨0⟩⟩, ⟨"y", .state ⟨1⟩⟩, ⟨"z", .input⟩]
        blocks := #[⟨[1], [("x", 0)]⟩, ⟨[2], [("y", 0)]⟩] } }

theorem threeLiterals_valid : threeLiterals.Valid := by
  have hliteral : ∀ v : Var, v ≠ 0 → ∀ s : Session, s.Admits (.literal v) := fun v hv s =>
    ⟨hv, fun e he => absurd he (by simp [Request.Uses])⟩
  have hleads : (Session.start .blank).Leads threeLiterals :=
    .step (.step (.step (.refl _) (hliteral 1 (by decide) _)) (hliteral 2 (by decide) _))
      (hliteral 3 (by decide) _)
  exact (hleads.valid (Session.valid_start Store.create_eq_blank)).1

end Automaton

end PlanningGame
