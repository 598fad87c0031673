import Mathlib
import PlanningGame.Game.Solution
import PlanningGame.Proofs.Diagram.Exposure

/-!
# Inputs that the agent does not see

An agent that moves first does not know the inputs of the round. If they are exposed in the
transitions and in the constraint then quantification removes them from every preimage, so no move
that is found tests them, and neither does a function of the strategy. Nothing is asked for the
order of the other variables.
-/
namespace PlanningGame

namespace Automaton

/-- What a state variable is replaced by is one of the next values. -/
theorem mem_next_of_nextValues {automaton : Automaton} {v : Var} {e : Edge}
    (h : automaton.nextValues[v]? = some e) : e ∈ automaton.next :=
  (List.of_mem_zip (Diagram.mem_of_ofList_eq_some h)).2

end Automaton

namespace Game

open Diagram

variable {game : Game} {attitude : Attitude} {store later : Store}
  {goal space moves states e : Edge}

/-- The inputs that the agent does not know when it moves. -/
def unseen (game : Game) : Set Var :=
  {v | v ∈ game.arena.inputs ∧ game.starting = .agent}

/-- The edge is in the store and tests no input that the agent does not know. -/
def Sighted (game : Game) (store : Store) (e : Edge) : Prop :=
  store.Within game.unseenᶜ e

/-- The agent wants to reach the goal, and what it does not know is exposed. -/
structure Exposed (game : Game) (store : Store) : Prop where
  protagonist_eq : game.protagonist = .agent
  next : ∀ e ∈ game.arena.next, store.Exposes game.unseen 0 e
  constraint : store.Exposes game.unseen 0 game.constraint

theorem Exposed.mono (h : game.Exposed store) (hle : store ≤ later) : game.Exposed later :=
  ⟨h.protagonist_eq, fun e he => (h.next e he).mono hle, h.constraint.mono hle⟩

theorem kept_sighted (game : Game) : Kept game.unseenᶜ game.Sighted :=
  kept_within _

theorem Sighted.mono (h : game.Sighted store e) (hle : store ≤ later) : game.Sighted later e :=
  Store.Within.mono h hle

theorem Sighted.exposes (h : game.Sighted store e) : store.Exposes game.unseen 0 e :=
  Store.Within.exposes h fun _ hv => hv

/-- An agent that moves second knows all inputs. -/
theorem unseen_eq_empty (hstarting : game.starting = .environment) : game.unseen = ∅ := by
  ext v
  simp [unseen, hstarting]

section Quantification

variable {quantified : List Var}

theorem keepsSighted_quantifyExists (hs : store.Replayable) (he : game.Sighted store e) :
    Keeps game.Sighted (quantifyExists e quantified) store := by
  have hnone : store.Exposes ∅ 0 e := Store.Within.exposes he fun _ _ => Set.notMem_empty _
  have key := keepsWithin_quantifyExists hs quantified he hnone
    fun v hv => absurd hv (Set.notMem_empty v)
  rwa [Set.sdiff_empty] at key

/-- Quantification over the inputs leaves none that is exposed. -/
theorem keepsSighted_existsInputs (hs : store.Replayable) (h : game.Exposed store)
    (he : store.Exposes game.unseen 0 e) : Keeps game.Sighted (game.existsInputs e) store := by
  unfold existsInputs
  refine Yields.bind (keeps_conj (kept_exposes .univ _) hs h.constraint he)
    fun both later hlater _ hboth => ?_
  have key := keepsWithin_quantifyExists hlater game.arena.inputs
    (hlater.toFounded.within_univ (hboth.has hlater.toFounded)) hboth fun v hv => hv.1
  rwa [← Set.compl_eq_univ_sdiff] at key

theorem keepsSighted_forallInputs (hs : store.Replayable) (h : game.Exposed store)
    (he : store.Exposes game.unseen 0 e) : Keeps game.Sighted (game.forallInputs e) store := by
  unfold forallInputs
  refine Yields.bind (keeps_imply (kept_exposes .univ _) hs h.constraint he)
    fun both later hlater _ hboth => ?_
  have key := keepsWithin_quantifyForall hlater game.arena.inputs
    (hlater.toFounded.within_univ (hboth.has hlater.toFounded)) hboth fun v hv => hv.1
  rwa [← Set.compl_eq_univ_sdiff] at key

end Quantification

section Iterations

variable (hs : store.Replayable) (h : game.Exposed store)
include hs h

theorem keepsExposed_nextStep (hstates : game.Sighted store states) :
    Keeps (fun s e => s.Exposes game.unseen 0 e) (game.nextStep states) store :=
  keeps_substitute (kept_exposes .univ _) hs
    (fun _ _ himage => h.next _ (Automaton.mem_next_of_nextValues himage))
    fun _ => hstates.exposes

theorem keepsSighted_preimage (hstates : game.Sighted store states) :
    Keeps game.Sighted (game.preimage attitude states) store := by
  unfold preimage
  refine Yields.bind (keepsExposed_nextStep hs h hstates) fun next now hnow hle hnext => ?_
  have h := h.mono hle
  rw [h.protagonist_eq]
  cases attitude with
  | cooperative => exact keepsSighted_existsInputs hnow h hnext
  | adversarial =>
    cases hstarting : game.starting with
    | agent => exact keepsSighted_forallInputs hnow h hnext
    | environment =>
      have hseen : game.unseenᶜ = .univ := by rw [unseen_eq_empty hstarting, Set.compl_empty]
      refine yields_pure hnow ?_
      rw [Sighted, hseen]
      exact hnow.toFounded.within_univ (hnext.has hnow.toFounded)

theorem keepsSighted_project (hmoves : game.Sighted store moves) :
    Keeps game.Sighted (game.project attitude moves) store := by
  unfold project
  dsimp only
  rw [h.protagonist_eq]
  cases attitude with
  | cooperative =>
    exact Yields.bind (keepsSighted_existsInputs hs h hmoves.exposes)
      fun _ _ hnow _ he => keepsSighted_quantifyExists hnow he
  | adversarial =>
    cases game.starting with
    | agent => exact keepsSighted_quantifyExists hs hmoves
    | environment =>
      exact Yields.bind (keepsSighted_quantifyExists hs hmoves)
        fun _ _ hnow hle he => keepsSighted_forallInputs hnow (h.mono hle) he.exposes

theorem yields_iterate_sighted (hspace : game.Sighted store space)
    (hmoves : game.Sighted store moves) (hstates : game.Sighted store states) :
    PlanningGame.Yields Store.Replayable (game.iterate attitude space moves states) store
      fun found later => game.Sighted later found.1 ∧ game.Sighted later found.2 := by
  have hP := game.kept_sighted
  unfold iterate
  refine Yields.bind (keepsSighted_preimage hs h hstates) fun leading s₁ hs₁ hle₁ hleading => ?_
  refine Yields.bind (keeps_conj hP hs₁ (hspace.mono hle₁) (hP.neg (hstates.mono hle₁)))
    fun outside s₂ hs₂ hle₂ houtside => ?_
  refine Yields.bind (keeps_conj hP hs₂ houtside (hleading.mono hle₂))
    fun fresh s₃ hs₃ hle₃ hfresh => ?_
  have hle := (hle₁.trans hle₂).trans hle₃
  refine Yields.bind (keeps_disj hP hs₃ (hmoves.mono hle) hfresh)
    fun more s₄ hs₄ hle₄ hmore => ?_
  refine Yields.bind (keepsSighted_project hs₄ (h.mono (hle.trans hle₄)) hmore)
    fun _ _ hlater hle₅ hstates => yields_pure hlater ⟨hmore.mono hle₅, hstates⟩

end Iterations

section Strategies

variable {functions : Std.TreeMap Var Edge}

/-- The functions of a strategy do not test what the agent does not know. -/
def AllSighted (game : Game) (store : Store) (functions : Std.TreeMap Var Edge) : Prop :=
  ∀ (v : Var) (e : Edge), functions[v]? = some e → game.Sighted store e

theorem AllSighted.mono (h : game.AllSighted store functions) (hle : store ≤ later) :
    game.AllSighted later functions :=
  fun v e he => (h v e he).mono hle

/-- Each variable gets a function, in addition to those that have one. -/
theorem yields_extractFrom_sighted (hs : store.Replayable) (hmoves : game.Sighted store moves)
    (hfunctions : game.AllSighted store functions) (vars : List Var) :
    PlanningGame.Yields Store.Replayable (extractFrom moves functions vars) store
      fun result later => game.AllSighted later result ∧
        ∀ v : Var, result[v]?.isSome = true ↔ functions[v]?.isSome = true ∨ v ∈ vars := by
  induction vars generalizing store moves functions with
  | nil => exact yields_pure hs ⟨hfunctions, by simp⟩
  | cons v rest ih =>
    rw [extractFrom]
    refine Yields.bind (keepsSighted_quantifyExists hs hmoves)
      fun possible s₁ hs₁ hle₁ hpossible => ?_
    refine Yields.bind (keepsWithin_restrict hs₁ hpossible) fun g s₂ hs₂ hle₂ hg => ?_
    have hle := hle₁.trans hle₂
    refine Yields.bind (keepsWithin_compose hs₂ (hmoves.mono hle) hg)
      fun left s₃ hs₃ hle₃ hleft => ?_
    have hinsert : game.AllSighted s₃ (functions.insert v g) := by
      intro w e he
      rw [Std.TreeMap.getElem?_insert] at he
      split at he
      · exact Option.some.inj he ▸ Sighted.mono hg hle₃
      · exact (hfunctions w e he).mono (hle.trans hle₃)
    refine (ih hs₃ hleft hinsert).weaken fun result later _ _ ⟨hsighted, hkeys⟩ =>
      ⟨hsighted, fun w => ?_⟩
    rw [hkeys, Std.TreeMap.getElem?_insert, List.mem_cons]
    split
    · next heq =>
      obtain rfl := Std.LawfulEqOrd.eq_of_compare heq
      simp
    · next hne =>
      have hne : w ≠ v := fun heq => hne (heq ▸ Std.ReflCmp.compare_self)
      simp [hne]

/-- The strategy belongs to the game and has a function for each variable of the protagonist, which
does not test what the agent does not know. -/
structure Guides (game : Game) (store : Store) (strategy : Strategy) : Prop where
  arena_eq : strategy.arena = game.arena
  starting_eq : strategy.starting = game.starting
  protagonist_eq : strategy.protagonist = game.protagonist
  sighted : game.AllSighted store strategy.functions
  isSome_iff : ∀ v : Var, strategy.functions[v]?.isSome = true ↔ v ∈ game.protagonistVars

theorem Guides.mono {strategy : Strategy} (h : game.Guides store strategy) (hle : store ≤ later) :
    game.Guides later strategy :=
  { h with sighted := h.sighted.mono hle }

theorem yields_extract_sighted (hs : store.Replayable) (hmoves : game.Sighted store moves) :
    PlanningGame.Yields Store.Replayable (game.extract moves) store fun functions later =>
      game.Guides later ⟨game.arena, functions, game.starting, game.protagonist⟩ := by
  unfold extract
  refine (yields_extractFrom_sighted hs hmoves (by simp [AllSighted]) _).bind
    fun functions now hnow _ ⟨hsighted, hkeys⟩ => ?_
  refine (mirrors_note hnow.alike _ _).yields.bind fun _ later hlater hle _ => ?_
  exact yields_pure hlater ⟨rfl, rfl, rfl, hsighted.mono hle, by simpa using hkeys⟩

variable (h : game.Exposed store) (hspace : game.Sighted store space)
include h hspace

/-- What has been found tests nothing that the agent does not know, by induction on the iterations
that are left. -/
theorem yields_solveFrom_guides (hs : store.Replayable) (hmoves : game.Sighted store moves)
    (hstates : game.Sighted store states) (remaining : Nat) (layers : List Edge) :
    PlanningGame.Yields Store.Replayable
      (game.solveFrom attitude space remaining moves states layers) store
      fun solution later => game.Guides later solution.strategy := by
  induction remaining generalizing store moves states layers with
  | zero => exact yields_throw _
  | succ remaining ih =>
    rw [solveFrom]
    refine (yields_iterate_sighted hs h hspace hmoves hstates).bind
      fun found s₁ hs₁ hle₁ ⟨hmore, hnew⟩ => ?_
    obtain ⟨more, new⟩ := found
    dsimp only at hmore hnew ⊢
    refine yields_current_bind ?_
    refine (mirrors_note hs₁.alike _ _).yields.bind fun _ s₂ hs₂ hle₂ _ => ?_
    have hle := hle₁.trans hle₂
    split
    · refine (mirrors_note hs₂.alike _ _).yields.bind fun _ s₃ hs₃ hle₃ _ => ?_
      exact (yields_extract_sighted hs₃ (hmore.mono (hle₂.trans hle₃))).bind
        fun functions later hlater _ hguides => yields_pure hlater hguides
    · exact ih (h.mono hle) (hspace.mono hle) hs₂ (hmore.mono hle₂) (hnew.mono hle₂) _

/-- The strategy of a game that is solved guides the agent. -/
theorem yields_solve_guides (hs : store.Replayable) (hgoal : game.Sighted store goal) :
    PlanningGame.Yields Store.Replayable (game.solve attitude goal space) store
      fun solution later => game.Guides later solution.strategy := by
  unfold solve
  refine Yields.bind (keeps_conj game.kept_sighted hs hspace hgoal)
    fun moves s₁ hs₁ hle₁ hmoves => ?_
  refine Yields.bind (keepsSighted_quantifyExists hs₁ hmoves) fun states s₂ hs₂ hle₂ hstates => ?_
  have hle := hle₁.trans hle₂
  exact yields_solveFrom_guides (h.mono hle) (hspace.mono hle) hs₂ (hmoves.mono hle₂) hstates _ []

end Strategies

end Game

end PlanningGame
