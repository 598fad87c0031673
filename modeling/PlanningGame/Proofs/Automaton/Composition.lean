import Mathlib
import PlanningGame.Automaton.Composition
import PlanningGame.Proofs.Diagram.Support
import PlanningGame.Proofs.Automaton.Basic

/-!
# What a composition consists of

The state of a composition is that of the first automaton followed by that of the second. The first
part moves on as before. The second part reads, for each shared fluent, the next value of a state
variable of the first, and its initial state is one step ahead.
-/
namespace PlanningGame

namespace Manager

variable {manager later : Manager} {registry : Registry} {e : Edge}

theorem alphabetSupport_eq_nil_iff : manager.alphabetSupport e = [] ↔
    ∀ v ∈ manager.store.support e, manager.registry.role? v ≠ some .alphabet := by
  unfold alphabetSupport
  rw [List.filter_eq_nil_iff]
  simp

end Manager

namespace Automaton

open Manager Store.Soundness Diagram

variable {registry : Registry} {store : Store} {manager : Manager} {block : Block}
  {sound : Store → Prop} [Store.Soundness sound] {first second : Automaton} {images : Substitution}

/-- The first automaton has a state variable under the name of the fluent, and there is a variable
to read it through. -/
structure Shares (registry : Registry) (block : Block) (first : Automaton) (name : String)
    (fluent : SharedFluent) : Prop where
  place : ∃ place, block.place? name = some place ∧ first.next[place]? = some fluent.next ∧
    first.initial[place]? = some fluent.initial
  lookup : registry.lookup? name = some fluent.letter
  ne_zero : fluent.letter ≠ 0

theorem yields_sharedFluent (hm : StandsIn sound registry manager)
    (hblock : registry.block? first.block = some block) (name : String) :
    YieldsIn sound registry (first.sharedFluent name) manager fun fluent _ =>
      Shares registry block first name fluent := by
  unfold sharedFluent
  refine yields_block_bind hm hblock ?_
  cases hplace : block.place? name with
  | none => exact yields_throw _
  | some place =>
    dsimp only
    apply (yields_named? hm name).bind
    intro answer m₁ hm₁ _ hanswer
    cases answer with
    | none => exact yields_throw _
    | some e =>
      obtain ⟨v, hlookup, hzero, rfl⟩ := hanswer e rfl
      dsimp only
      refine yields_diagrams_bind (yields_note_bind hm₁ _ _ fun m₂ hm₂ _ => ?_)
      split
      · next next initial hnext hinitial =>
        exact yields_pure hm₂ ⟨⟨place, hplace, hnext, hinitial⟩, hlookup, hzero⟩
      · exact yields_throw _

theorem yields_rewire (hm : StandsIn sound registry manager)
    (himages : HasImages manager.store images) {e : Edge} (he : manager.store.Has e) :
    YieldsIn sound registry (rewire images e) manager fun wired later =>
      later.store.Denotes wired (fun a =>
        manager.store.eval e (replaced manager.store images a) = true) ∧
        ∀ v ∈ later.store.support wired, registry.role? v ≠ some .alphabet := by
  unfold rewire
  apply (yields_lift hm (ensures_substitute hm.sound himages he).yields).bind
  intro wired m₁ hm₁ _ hwired
  refine yields_get_bind ?_
  cases hsupport : m₁.alphabetSupport wired with
  | nil =>
    exact yields_pure hm₁ ⟨hwired, hm₁.registry_eq ▸ alphabetSupport_eq_nil_iff.1 hsupport⟩
  | cons v rest => exact yields_throw _

/-- The letters of shared fluents are replaced by the next values of the fluents. -/
def letterImages (fluents : List SharedFluent) : Substitution :=
  Std.TreeMap.ofList (fluents.map fun fluent => (fluent.letter, fluent.next))

/-- The initial values of shared fluents, under their letters. -/
def initialLetters (fluents : List SharedFluent) : Valuation :=
  Valuation.assign (fun _ => false) (fluents.map (·.letter)) (fluents.map (·.initial))

/-- An automaton that runs the first and lets the second read the shared fluents. -/
structure Composed (store : Store) (first second : Automaton) (fluents : List SharedFluent)
    (wired : List Edge) (arena : Automaton) : Prop where
  stateVars_eq : arena.stateVars = first.stateVars ++ second.stateVars
  inputs_eq : arena.inputs = first.inputs ++ second.inputs.filter (· ∉ first.inputs)
  outputs_eq : arena.outputs = first.outputs ++ second.outputs.filter (· ∉ first.outputs)
  initial : ∃ moved, second.step store second.initial
    (first.valuation first.initial (initialLetters fluents)) = .ok moved ∧
      arena.initial = first.initial ++ moved
  next_eq : arena.next = first.next ++ wired
  wired : store.DenotesEach
    (fun e a => store.eval e (replaced store (letterImages fluents) a) = true) second.next wired
  initial_length : arena.initial.length = arena.stateVars.length
  next_length : arena.next.length = arena.stateVars.length

theorem exists_of_letterImages {fluents : List SharedFluent} {v : Var} {image : Edge}
    (h : (letterImages fluents)[v]? = some image) :
    ∃ fluent ∈ fluents, fluent.letter = v ∧ fluent.next = image := by
  obtain ⟨fluent, hfluent, hentry⟩ := List.mem_map.1 (mem_of_ofList_eq_some h)
  exact ⟨fluent, hfluent, Prod.mk.inj hentry⟩

theorem hasImages_letterImages {shared : List String} {fluents : List SharedFluent}
    (h : List.Forall₂ (Shares registry block first) shared fluents)
    (hnext : ∀ e ∈ first.next, store.Has e) : HasImages store (letterImages fluents) := by
  intro v image himage
  obtain ⟨fluent, hfluent, -, rfl⟩ := exists_of_letterImages himage
  obtain ⟨name, -, hshares⟩ := Store.exists_of_forall₂ h fluent hfluent
  obtain ⟨place, -, hplace, -⟩ := hshares.place
  exact hnext _ (List.mem_of_getElem? hplace)

/-- The next values of the second automaton, reading those of the first. -/
theorem yields_rewire_all (hm : StandsIn sound registry manager)
    (himages : HasImages manager.store images) {next : List Edge}
    (hnext : ∀ e ∈ next, manager.store.Has e) :
    YieldsIn sound registry (next.mapM (rewire images)) manager fun wired later =>
      later.store.DenotesEach (fun e a =>
        later.store.eval e (replaced later.store images a) = true) next wired ∧
        ∀ e ∈ wired, ∀ v ∈ later.store.support e, registry.role? v ≠ some .alphabet := by
  have hmap : YieldsIn sound registry (next.mapM (rewire images)) manager fun wired later =>
      List.Forall₂ (fun e wired => later.store.Denotes wired (fun a =>
        manager.store.eval e (replaced manager.store images a) = true) ∧
        ∀ v ∈ later.store.support wired, registry.role? v ≠ some .alphabet) next wired := by
    refine yields_mapM hm ?_ ?_
    · rintro e wired now later hnow hle ⟨hwired, hsupport⟩
      refine ⟨hwired.mono (founded hnow.sound) hle.1, fun v hv => hsupport v ?_⟩
      exact ((founded hnow.sound).mem_support_iff_of_le hle.1 hwired.has).1 hv
    · intro e he now hnow hle
      refine (yields_rewire hnow (himages.mono hle.1) ((hnext e he).mono hle.1)).weaken
        fun wired later _ _ h => ⟨h.1.congr fun a => ?_, h.2⟩
      rw [(founded hm.sound).eval_mono hle.1 (hnext e he),
        himages.replaced_eq (founded hm.sound) hle.1]
  refine hmap.weaken fun wired later _ hle hwired => ⟨?_, fun e he => ?_⟩
  · refine Store.DenotesEach.congr (hwired.imp fun _ _ h => h.1) fun e he a => ?_
    rw [(founded hm.sound).eval_mono hle.1 (hnext e he),
      himages.replaced_eq (founded hm.sound) hle.1]
  · obtain ⟨_, -, -, hsupport⟩ := Store.exists_of_forall₂ hwired e he
    exact hsupport

theorem yields_compose (hs : sound manager.store) {labels labels' : List (String × Nat)}
    (hfirst : manager.registry.block? first.block = some ⟨first.stateVars, labels⟩)
    (hsecond : manager.registry.block? second.block = some ⟨second.stateVars, labels'⟩)
    (hnext : ∀ e ∈ first.next, manager.store.Has e)
    (hnext' : ∀ e ∈ second.next, manager.store.Has e) (shared : List String) :
    PlanningGame.Yields (fun m : Manager => sound m.store) (first.compose second shared) manager
      fun arena later => ∃ fluents wired,
        List.Forall₂ (Shares manager.registry ⟨first.stateVars, labels⟩ first) shared fluents ∧
        Composed later.store first second fluents wired arena ∧
        ∀ e ∈ wired, later.alphabetSupport e = [] := by
  have hm : StandsIn sound manager.registry manager := ⟨hs, rfl⟩
  have hfluents : PlanningGame.Yields (fun m : Manager => sound m.store)
      (shared.mapM first.sharedFluent) manager fun fluents later =>
        later.registry = manager.registry ∧
          List.Forall₂ (Shares manager.registry ⟨first.stateVars, labels⟩ first) shared fluents :=
    yields_of_stands
      (yields_mapM hm (fun _ _ _ _ _ _ h => h)
        fun name _ now hnow _ => yields_sharedFluent hnow hfirst name)
      fun fluents later hlater _ h => ⟨hlater.registry_eq, h⟩
  unfold compose
  refine hfluents.bind fun fluents m₁ hs₁ hle₁ ⟨hregistry, hshares⟩ => ?_
  dsimp only
  have hblocks : m₁.registry.findBlocks? [first.block, second.block] =
      some [⟨first.stateVars, labels⟩, ⟨second.stateVars, labels'⟩] := by
    rw [hregistry, Registry.findBlocks?]
    simp [hfirst, hsecond]
  refine (yields_newProductBlock hs₁ hblocks).bind fun id m₂ hs₂ hle₂ ⟨_, hblock⟩ => ?_
  have hm₂ : StandsIn sound m₂.registry m₂ := ⟨hs₂, rfl⟩
  have hnext₂ := fun e he => (hnext e he).mono (hle₁.trans hle₂).1
  have hnext₂' := fun e he => (hnext' e he).mono (hle₁.trans hle₂).1
  have himages : HasImages m₂.store (letterImages fluents) := hasImages_letterImages hshares hnext₂
  suffices key : YieldsIn sound m₂.registry _ m₂ fun arena later => ∃ wired,
      Composed later.store first second fluents wired arena ∧
        ∀ e ∈ wired, ∀ v ∈ later.store.support e, m₂.registry.role? v ≠ some .alphabet from
    yields_of_stands key fun arena later hlater _ h =>
      ⟨fluents, h.imp fun wired hwired => ⟨hshares, hwired.1, fun e he =>
        alphabetSupport_eq_nil_iff.2 (hlater.registry_eq ▸ hwired.2 e he)⟩⟩
  refine yields_diagrams_bind ?_
  apply (yields_ofExcept hm₂ _).bind
  intro moved m₃ hm₃ hle₃ hmoved
  refine (yields_rewire_all hm₃ (himages.mono hle₃.1) fun e he =>
    (hnext₂' e he).mono hle₃.1).bind fun wired m₄ hm₄ hle₄ ⟨hwired, hsupport⟩ => ?_
  refine yields_note_bind hm₄ _ _ fun m₅ hm₅ hle₅ => ?_
  have hconcat : Block.concat [⟨first.stateVars, labels⟩, ⟨second.stateVars, labels'⟩] =
      ⟨first.stateVars ++ second.stateVars, _⟩ := rfl
  rw [hconcat] at hblock
  refine (Automaton.yields_create hm₅ hblock _ _ _).bind
    fun arena last hlast hle₆ ⟨harena, hinitial, hlength⟩ => ?_
  subst harena
  have hle := hle₅.trans hle₆
  have hle' := (hle₃.trans hle₄).trans hle
  have hstep : second.step last.store second.initial
      (first.valuation first.initial (initialLetters fluents)) = .ok moved :=
    (step_mono (founded hm₂.sound) hle'.1 hnext₂' _ _).trans hmoved
  refine yields_pure hlast ⟨wired, ⟨rfl, rfl, rfl, ⟨moved, hstep, rfl⟩, rfl, ?_, hinitial, hlength⟩,
    fun e he v hv => hsupport e he v ?_⟩
  · refine (hwired.mono (founded hm₄.sound) hle.1).congr fun e he a => ?_
    have he₄ := (hnext₂' e he).mono (hle₃.trans hle₄).1
    have himages₄ := himages.mono (hle₃.trans hle₄).1
    rw [(founded hm₄.sound).eval_mono hle.1 he₄, himages₄.replaced_eq (founded hm₄.sound) hle.1]
  · exact ((founded hm₄.sound).mem_support_iff_of_le hle.1 (hwired.has e he)).1 hv

end Automaton

end PlanningGame
