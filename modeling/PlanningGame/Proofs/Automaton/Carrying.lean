import Mathlib
import PlanningGame.Proofs.Automaton.Composition
import PlanningGame.Proofs.Diagram.Exposure
import PlanningGame.Proofs.Encoding.OwnVariables

/-!
# What a composition takes over

The next values of the first automaton are kept in a composition, and those of the second are put
together again from them and from literals. So they have what the connectives keep, whatever the
second automaton reads, unless nothing is shared: then they are taken over as they are.
-/
namespace PlanningGame

namespace Automaton

open Manager

variable {registry : Registry} {manager : Manager} {first second : Automaton}
  {images : Substitution} {P : Store → Edge → Prop}

/-- The arena has the letters of an automaton and at least its state bits, and the next values have
the property. -/
structure Carries (automaton : Automaton) (P : Edge → Prop) (arena : Automaton) : Prop where
  inputs_eq : arena.inputs = automaton.inputs
  outputs_eq : arena.outputs = automaton.outputs
  length_le : automaton.next.length ≤ arena.next.length
  next : ∀ e ∈ arena.next, P e

/-- An automaton has no letters when it is created. -/
theorem yields_create_letters (hm : StandsIn Store.Replayable registry manager) (id : BlockId)
    (initial : List Bool) (next : List Edge) (finals : Edge) :
    YieldsIn Store.Replayable registry (create id initial next finals) manager fun automaton _ =>
      automaton.inputs = [] ∧ automaton.outputs = [] := by
  unfold create
  refine (yields_block hm id).bind fun block now hnow _ _ => ?_
  dsimp only
  split
  · exact yields_pure hnow ⟨rfl, rfl⟩
  · exact yields_throw _

variable (hP : Diagram.Kept .univ P)
include hP

/-- A shared fluent is read through a next value of the first automaton. -/
theorem yields_sharedFluent_next (hm : StandsIn Store.Replayable registry manager) (name : String) :
    YieldsIn Store.Replayable registry (first.sharedFluent name) manager fun fluent _ =>
      fluent.next ∈ first.next := by
  have hnamed {now : Manager} (hnow : StandsIn Store.Replayable registry now) :
      YieldsIn Store.Replayable registry (named? name) now fun _ _ => True := by
    unfold named?
    refine yields_registered_bind hnow ?_
    cases registry.lookup? name with
    | none => exact yields_pure hnow trivial
    | some v =>
      exact (yields_lift hnow (hP.literal hnow.sound (Set.mem_univ v))).bind
        fun _ _ hlater _ _ => yields_pure hlater trivial
  unfold sharedFluent
  refine (yields_block hm first.block).bind fun block m₁ hm₁ _ _ => ?_
  cases block.place? name with
  | none => exact yields_throw _
  | some place =>
    refine (hnamed hm₁).bind fun answer m₂ hm₂ _ _ => ?_
    cases answer with
    | none => exact yields_throw _
    | some e =>
      refine yields_diagrams_bind (yields_note_bind hm₂ _ _ fun m₃ hm₃ _ => ?_)
      split
      · next hnext _ => exact yields_pure hm₃ (List.mem_of_getElem? hnext)
      · exact yields_throw _

theorem yields_rewire_kept (hm : StandsIn Store.Replayable registry manager) {e : Edge}
    (himages : ∀ (v : Var) (image : Edge), images[v]? = some image → P manager.store image)
    (he : images.isEmpty = true → P manager.store e) :
    YieldsIn Store.Replayable registry (rewire images e) manager
      fun wired later => P later.store wired := by
  unfold rewire
  refine (yields_lift hm (Diagram.keeps_substitute hP hm.sound himages he)).bind
    fun wired later hlater _ hwired => ?_
  refine yields_get_bind ?_
  split
  · exact yields_throw _
  · exact yields_pure hlater hwired

/-- Whatever is registered, the next values of a composition have what those of the first automaton
have. If nothing is shared then those of the second are taken over as they are. -/
theorem yields_compose_kept (hs : manager.store.Replayable) {shared : List String}
    (hinputs : second.inputs = []) (houtputs : second.outputs = [])
    (hfirst : ∀ e ∈ first.next, P manager.store e)
    (hsecond : shared = [] → ∀ e ∈ second.next, P manager.store e) :
    PlanningGame.Yields (fun m : Manager => m.store.Replayable) (first.compose second shared)
      manager fun arena later => first.Carries (P later.store) arena := by
  have hm : StandsIn Store.Replayable manager.registry manager := ⟨hs, rfl⟩
  have hfluents : PlanningGame.Yields (fun m : Manager => m.store.Replayable)
      (shared.mapM first.sharedFluent) manager fun fluents _ =>
        List.Forall₂ (fun _ fluent => fluent.next ∈ first.next) shared fluents :=
    yields_of_stands
      (yields_mapM hm (fun _ _ _ _ _ _ h => h)
        fun name _ _ hnow _ => yields_sharedFluent_next hP hnow name)
      fun _ _ _ _ h => h
  unfold compose
  refine hfluents.bind fun fluents m₁ hs₁ hle₁ hfluents => ?_
  refine (yields_newProductBlock_block hs₁ _).bind fun id m₂ hs₂ hle₂ ⟨block, hblock⟩ => ?_
  have hm₂ : StandsIn Store.Replayable m₂.registry m₂ := ⟨hs₂, rfl⟩
  have hle := (hle₁.trans hle₂).1
  have himages : ∀ (v : Var) (image : Edge), (letterImages fluents)[v]? = some image →
      P m₂.store image := by
    intro v image himage
    obtain ⟨fluent, hfluent, -, rfl⟩ := exists_of_letterImages himage
    obtain ⟨_, -, hnext⟩ := Store.exists_of_forall₂ hfluents fluent hfluent
    exact hP.mono (hfirst _ hnext) hle
  have hempty : (letterImages fluents).isEmpty = true → ∀ e ∈ second.next, P m₂.store e := by
    intro hempty e he
    rw [letterImages, Std.TreeMap.isEmpty_ofList, List.isEmpty_map, List.isEmpty_iff] at hempty
    subst hempty
    exact hP.mono (hsecond (List.forall₂_nil_right_iff.1 hfluents) e he) hle
  suffices key : YieldsIn Store.Replayable m₂.registry _ m₂ fun arena later =>
      first.Carries (P later.store) arena from
    yields_of_stands key fun _ _ _ _ h => h
  refine yields_diagrams_bind ((yields_ofExcept hm₂ _).bind fun moved m₃ hm₃ hle₃ _ => ?_)
  have hwired : YieldsIn Store.Replayable m₂.registry
      (second.next.mapM (rewire (letterImages fluents))) m₃
      fun wired later => ∀ e ∈ wired, P later.store e := by
    refine Encoding.yields_mapM_all (P := fun e later => P later.store e) hm₃
      (fun _ _ _ hle he => hP.mono he hle.1) fun e he now hnow hle₄ => ?_
    have hle := (hle₃.trans hle₄).1
    exact yields_rewire_kept hP hnow (fun v image h => hP.mono (himages v image h) hle)
      fun h => hP.mono (hempty h e he) hle
  refine hwired.bind fun wired m₄ hm₄ hle₄ hwired => ?_
  refine yields_note_bind hm₄ _ _ fun m₅ hm₅ hle₅ => ?_
  refine (yields_create hm₅ hblock _ _ _).bind fun arena last hlast hle₆ ⟨harena, _, _⟩ => ?_
  subst harena
  have hfirst' := fun e he => hP.mono (hfirst e he) <|
    hle.trans ((((hle₃.trans hle₄).trans hle₅).trans hle₆).1)
  have hwired' := fun e he => hP.mono (hwired e he) (hle₅.trans hle₆).1
  refine yields_pure hlast
    { inputs_eq := by simp [hinputs]
      outputs_eq := by simp [houtputs]
      length_le := ?_
      next := List.forall_mem_append.2 ⟨hfirst', hwired'⟩ }
  rw [List.length_append]
  exact Nat.le_add_right _ _

end Automaton

end PlanningGame
