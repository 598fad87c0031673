import Mathlib
import PlanningGame.Proofs.Diagram.Replacement
import PlanningGame.Proofs.Diagram.Support
import PlanningGame.Proofs.Game.Lockstep
import PlanningGame.Proofs.Game.Solving

/-!
# The order in which strategies choose

The functions that are extracted from some moves give the protagonist the greatest values that the
moves leave open. Values are compared as words: the first variable counts most and true is more than
false. This is the order of the variables of the player, whatever their order in the diagrams is.
-/
namespace PlanningGame

/-- To outdo a valuation is to have greater values, compared as words. -/
theorem Valuation.outdoes_iff_lt (a b : Valuation) (vars : List Var) :
    a.Outdoes b vars ↔ vars.map b < vars.map a := by
  induction vars with
  | nil => simp [Outdoes]
  | cons v rest ih =>
    rw [Outdoes, ih, List.map_cons, List.map_cons, List.cons_lt_cons_iff, Bool.lt_iff,
      and_comm, eq_comm (a := a v) (b := b v)]

namespace Game

open Diagram
open Manager (crossed leads_crossed create_crossed has_crossed ascends_crossed not_ordered_crossed)

variable {store later : Store} {functions : Substitution} {vars : List Var} {moves : Edge}

/-- The values that the functions of the variables have under a valuation. -/
def functionValues (store : Store) (functions : Substitution) (vars : List Var) (a : Valuation) :
    List Bool :=
  vars.map (replaced store functions a)

/-- The values of the variables for which there is a move, if the other variables are valued as
given. -/
def openValues (store : Store) (moves : Edge) (vars : List Var) (a : Valuation) :
    Set (List Bool) :=
  {values | values.length = vars.length ∧ store.eval moves (a.assign vars values) = true}

theorem followed_eq_assign (a : Valuation) :
    followed store functions vars a = a.assign vars (functionValues store functions vars a) :=
  funext fun v => (Valuation.assign_map a (replaced store functions a) vars v).symm

theorem map_followed (a : Valuation) :
    vars.map (followed store functions vars a) = functionValues store functions vars a :=
  List.map_congr_left fun _ hv => if_pos hv

/-- Values are open if they are those of a move that differs on the variables only. -/
theorem mem_openValues_iff (hnodup : vars.Nodup) {a : Valuation} {values : List Bool} :
    values ∈ openValues store moves vars a ↔
      ∃ b, a.VariesOn vars b ∧ store.eval moves b = true ∧ vars.map b = values := by
  constructor
  · intro ⟨hlength, hmove⟩
    exact ⟨_, fun v hv => Valuation.assign_of_not_mem hv a values, hmove,
      Valuation.map_assign a hnodup hlength⟩
  · rintro ⟨b, hab, hmove, rfl⟩
    have hb : a.assign vars (vars.map b) = b := by
      funext v
      rw [Valuation.assign_map]
      split
      · rfl
      · next hv => exact (hab v hv).symm
    exact ⟨List.length_map _, hb.symm ▸ hmove⟩

section Chosen

variable (h : Chooses later vars ∅ functions (store.eval moves · = true)) (hnodup : vars.Nodup)
include h hnodup

/-- The values of the functions are the greatest that are open, if any are. -/
theorem Chooses.isGreatest {a : Valuation} (hopen : (openValues store moves vars a).Nonempty) :
    IsGreatest (openValues store moves vars a) (functionValues later functions vars a) := by
  obtain ⟨values, hvalues⟩ := hopen
  obtain ⟨b, hab, hmove, -⟩ := (mem_openValues_iff hnodup).1 hvalues
  constructor
  · have hchosen := h.chosen a ⟨b, hab, hmove⟩
    rw [followed_eq_assign] at hchosen
    exact ⟨List.length_map _, hchosen⟩
  · intro others hothers
    obtain ⟨c, hac, hmove', rfl⟩ := (mem_openValues_iff hnodup).1 hothers
    have hgreatest := h.greatest a c hac hmove'
    rwa [Valuation.outdoes_iff_lt, map_followed, not_lt] at hgreatest

/-- The values of the functions are false if none are open. -/
theorem Chooses.values_eq_false {a : Valuation} (hnone : openValues store moves vars a = ∅) :
    ∀ value ∈ functionValues later functions vars a, value = false := by
  have hidle := h.idle a fun b hab hmove => by
    have hmem : vars.map b ∈ openValues store moves vars a :=
      (mem_openValues_iff hnodup).2 ⟨b, hab, hmove, rfl⟩
    rw [hnone] at hmem
    exact hmem
  rw [← map_followed, List.forall_mem_map]
  exact hidle

end Chosen

/-- Functions are extracted unless there is no room for them, whatever else is in the store. None of
them is over a variable of the protagonist. Together they give the greatest values that the moves
leave open, and false values where none are open. -/
theorem extract_isGreatest (game : Game) (hs : store.Replayable) (hmoves : store.Has moves)
    (hordered : store.Ascends moves) (hnodup : game.protagonistVars.Nodup)
    (hzero : 0 ∉ game.protagonistVars) {outcome : Except Failure Substitution}
    (hrun : (game.extract moves).run.run store = (outcome, later)) :
    (∃ failure, outcome = .error failure ∧ IsFull failure later) ∨
    ∃ functions, outcome = .ok functions ∧
      (∀ v : Var, functions[v]?.isSome = true ↔ v ∈ game.protagonistVars) ∧
      (∀ (v : Var) (g : Edge), functions[v]? = some g →
        ∀ u ∈ game.protagonistVars, u ∉ later.support g) ∧
      (∀ a, (openValues store moves game.protagonistVars a).Nonempty →
        IsGreatest (openValues store moves game.protagonistVars a)
          (functionValues later functions game.protagonistVars a)) ∧
      ∀ a, openValues store moves game.protagonistVars a = ∅ →
        ∀ value ∈ functionValues later functions game.protagonistVars a, value = false := by
  obtain ⟨t, moves', hst, ht, -, hcopy⟩ :=
    hordered.exists_copy hmoves hs.paired_blank Store.sound_blank
  have hmoves' : t.Denotes moves' (store.eval moves · = true) :=
    hcopy.denotes hs.toFounded ht.founded hmoves.denotes
  have hextract : Concludes Store.Sound (game.extract moves') t (fun functions later =>
      Chooses later game.protagonistVars ∅ functions (store.eval moves · = true)) IsFull :=
    concludes_extract ht hmoves' hnodup (fun _ _ hfull => hfull)
      fun _ hmem => absurd hmem hzero
  have hpaced := paced_extract (Eq.refl game.protagonistVars) hst hcopy
  cases outcome with
  | error failure => exact .inl ⟨failure, rfl, hpaced.isFull_of_error hextract hrun⟩
  | ok functions =>
    obtain ⟨functions', last, hrun', hpaired, -, hcopies⟩ := hpaced.exists_answer hrun
    obtain ⟨hlast, -, h⟩ := hextract.yields functions' last hrun'
    have hlater := hpaired.left.toFounded
    have hvalues : functionValues last functions' = functionValues later functions := by
      unfold functionValues
      rw [hcopies.replaced_eq hlater hlast.founded]
    refine .inr ⟨functions, rfl, fun v => ?_, fun v g hg u hu => ?_,
      fun a hopen => hvalues ▸ h.isGreatest hnodup hopen,
      fun a hnone => hvalues ▸ h.values_eq_false hnodup hnone⟩
    · rw [← h.isSome_iff, ← Std.TreeMap.mem_iff_isSome_getElem?,
        ← Std.TreeMap.mem_iff_isSome_getElem?, hcopies.mem_iff]
    · obtain ⟨g', hg', hcopy'⟩ := hcopies.exists_of_getElem? hg
      rw [← hcopy'.support_eq hlater hlast.founded]
      have hv : v ∈ game.protagonistVars := h.isSome_iff.1 (by simp [hg'])
      exact hlast.toReduced.not_mem_support (h.images v g' hg') (h.ignores u (.inl hu) v hv g' hg')

/-- An agent with two outputs, of which the second comes first in the diagrams. -/
def differGame : Game :=
  { arena :=
      { block := ⟨0⟩, stateVars := [1], initial := [false], next := [.one]
        finals := .one, outputs := [0x7FFFFFFF, 3] }
    starting := .agent, protagonist := .agent }

/-- If the outputs have to differ then the first is made true. Beside the moves there is a diagram
that is not ordered. -/
theorem extract_differGame_isGreatest :
    let moves : Edge := -Edge.ofFin 4
    let vars : List Var := [0x7FFFFFFF, 3]
    ∃ functions later, ¬ crossed.store.Ordered ∧ crossed.store.Replayable ∧
      crossed.store.Ascends moves ∧
      (differGame.extract moves).run.run crossed.store = (.ok functions, later) ∧
      functionValues later functions vars (fun _ => false) = [true, false] ∧
      IsGreatest (openValues crossed.store moves vars fun _ => false) [true, false] := by
  intro moves vars
  have hs := leads_crossed.replayable create_crossed
  have hok : answersWith (differGame.extract moves) crossed.store (fun functions later =>
      functionValues later functions vars (fun _ => false) = [true, false]) = true := by
    set_option maxRecDepth 1500 in cbv
  obtain ⟨functions, later, hrun, hvalues⟩ := exists_run_of_answersWith hok
  have hvalues := of_decide_eq_true hvalues
  have hopen : [true, false] ∈ openValues crossed.store moves vars fun _ => false :=
    ⟨rfl, by decide +kernel⟩
  obtain ⟨_, herror, -⟩ | ⟨_, hanswer, -, -, hgreatest, -⟩ :=
    extract_isGreatest differGame hs (has_crossed (by decide) (by decide)) ascends_crossed
      (by decide) (by decide) hrun
  · exact absurd herror (by simp)
  · obtain rfl := Except.ok.inj hanswer
    exact ⟨functions, later, not_ordered_crossed, hs, ascends_crossed, hrun, hvalues,
      hvalues ▸ hgreatest (fun _ => false) ⟨_, hopen⟩⟩

end Game

end PlanningGame
