import Mathlib
import PlanningGame.Proofs.Encoding.Cleared
import PlanningGame.Proofs.Encoding.Contest

/-!
# Encodings in any two managers

A domain may be compiled twice, in the same manager or in two different ones, and solved in each at
any later time. Nothing depends on what else the managers hold: each run ends as it does without the
diagrams of others, and there both runs end in the same way. This is so unless one of the runs uses
up all positions of its store.

In particular it makes no difference whether an illegal choice of the agent is excluded or
remembered by a bit.
-/
namespace PlanningGame

section Ends

variable {α α' β β' : Type} {R : α → α' → Prop} {R' : β → β' → Prop} {S : α' → β' → Prop}
  {T : α → β → Prop} {first : Except Failure α} {other : Except Failure α'}
  {second : Except Failure β} {other' : Except Failure β'}

/-- Runs end in the same way if each ends as another one, and those end in the same way. -/
theorem SameEnd.of_ends (h : SameEnd R first other) (h' : SameEnd R' second other')
    (hothers : SameEnd S other other') (hT : ∀ a b c d, R a c → R' b d → S c d → T a b) :
    SameEnd T first second := by
  cases hothers with
  | answered hcd =>
    cases h with
    | answered hac =>
      cases h' with
      | answered hbd => exact .answered (hT _ _ _ _ hac hbd hcd)
  | failed failure =>
    cases h
    cases h'
    exact .failed failure

/-- Unless it uses up all positions, the first run ends as the second. -/
theorem Lockstep.exists_end {σ : Type} [Preorder σ] {alike : σ → σ → Prop}
    {room : σ → Prop} {s t later : σ}
    {op : ExceptT Failure (StateM σ) α} {op' : ExceptT Failure (StateM σ) α'}
    {post : α → α' → σ → σ → Prop} (h : Lockstep alike room op op' s t post)
    (hrun : op.run.run s = (first, later)) (hroom : first ≠ .error .full) :
    ∃ other last, op'.run.run t = (other, last) ∧ alike later last ∧ s ≤ later ∧ t ≤ last ∧
      SameEnd (fun a b => post a b later last) first other := by
  unfold Lockstep at h
  rw [hrun] at h
  generalize op'.run.run t = right at h ⊢
  cases h with
  | full => exact absurd rfl hroom
  | failed halike hle hle' => exact ⟨_, _, rfl, halike, hle, hle', .failed _⟩
  | answered halike hle hle' hpost => exact ⟨_, _, rfl, halike, hle, hle', .answered hpost⟩

end Ends

section Copies

variable {ι : List Bool → List Bool} {arena arena' clean clean' : Automaton} {s t s' t' : Store}
  (harena : Automaton.Copies s t arena clean) (harena' : Automaton.Copies s' t' arena' clean')
  (hpaired : s.Paired t) (hpaired' : s'.Paired t')
include harena harena' hpaired hpaired'

/-- Solutions agree if copies of them do. -/
theorem Solution.Agrees.of_copies {solution solution' found found' : Solution}
    (hcopies : Solution.Copies s t solution found)
    (hcopies' : Solution.Copies s' t' solution' found')
    (h : Solution.Agrees ι clean clean' t t' found found') :
    Solution.Agrees ι arena arena' s s' solution solution' := by
  have hsatisfies : ∀ {e f}, s.Copies t e f → arena.satisfies s e = clean.satisfies t f :=
    fun he => funext fun state => (harena.satisfies_eq hpaired he state).symm
  have hsatisfies' : ∀ {e f}, s'.Copies t' e f → arena'.satisfies s' e = clean'.satisfies t' f :=
    fun he => funext fun state => (harena'.satisfies_eq hpaired' he state).symm
  have hlayers : found.layers.map (clean.satisfies t) = solution.layers.map (arena.satisfies s) :=
    map_eq_of_forall₂ hcopies.layers fun _ _ he => (hsatisfies he).symm
  have hlayers' :
      found'.layers.map (clean'.satisfies t') = solution'.layers.map (arena'.satisfies s') :=
    map_eq_of_forall₂ hcopies'.layers fun _ _ he => (hsatisfies' he).symm
  obtain ⟨hlength, hrealizable, hiterations, hwinning, heach, hchoice, hrefuses, hrefuses'⟩ := h
  rw [harena.stateVars_eq, harena'.stateVars_eq] at hlength hwinning heach
  rw [harena.stateVars_eq] at hchoice
  constructor
  · exact hlength
  · rw [← hcopies.realizable_eq, ← hcopies'.realizable_eq, hrealizable]
  · rw [← hcopies.iterations_eq, ← hcopies'.iterations_eq, hiterations]
  · rwa [hsatisfies hcopies.winningStates, hsatisfies' hcopies'.winningStates]
  · have hmaps : List.Forall₂ (SameStates ι arena.stateVars.length arena'.stateVars.length)
        (found.layers.map (clean.satisfies t)) (found'.layers.map (clean'.satisfies t')) := by
      rwa [List.forall₂_map_left_iff, List.forall₂_map_right_iff]
    rwa [hlayers, hlayers', List.forall₂_map_left_iff, List.forall₂_map_right_iff] at hmaps
  · intro state hstate o o'
    rw [← hcopies.strategy.choice_eq hpaired, ← hcopies'.strategy.choice_eq hpaired']
    exact hchoice state hstate o o'
  · intro state o hstate
    rw [← harena.stateVars_eq] at hstate ⊢
    rw [← hcopies.strategy.choice_eq hpaired, hrefuses state o hstate]
  · intro state o hstate
    rw [← harena'.stateVars_eq] at hstate ⊢
    rw [← hcopies'.strategy.choice_eq hpaired', hrefuses' state o hstate]

theorem BestEffort.Agrees.of_copies {result result' found found' : BestEffort}
    (hcopies : BestEffort.Copies s t result found) (hcopies' : BestEffort.Copies s' t' result' found')
    (h : BestEffort.Agrees ι clean clean' t t' found found') :
    BestEffort.Agrees ι arena arena' s s' result result' := by
  obtain ⟨hadversarial, hcooperative, hregion, hlosing⟩ := h
  rw [harena.stateVars_eq] at hregion
  rw [harena.stateVars_eq, harena'.stateVars_eq] at hlosing
  constructor
  · exact hadversarial.of_copies harena harena' hpaired hpaired' hcopies.adversarial
      hcopies'.adversarial
  · have hleft := hcopies.cooperative
    have hright := hcopies'.cooperative
    generalize result.cooperative = help at hleft ⊢
    generalize result'.cooperative = help' at hright ⊢
    generalize found.cooperative = cleanHelp at hleft hcooperative
    generalize found'.cooperative = cleanHelp' at hright hcooperative
    cases hcooperative with
    | none =>
      cases hleft
      cases hright
      exact .none
    | some hagrees =>
      cases hleft with
      | some hhelp =>
        cases hright with
        | some hhelp' =>
          exact .some (hagrees.of_copies harena harena' hpaired hpaired' hhelp hhelp')
  · intro state hstate
    rw [← hcopies.region_eq hpaired, ← hcopies'.region_eq hpaired']
    exact hregion state hstate
  · intro state hstate hnot
    rw [← hcopies'.region_eq hpaired']
    exact hlosing state hstate hnot

theorem Encoding.Outcome.Agrees.of_copies {outcome outcome' found found' : Encoding.Outcome}
    (hcopies : Encoding.Outcome.Copies s t outcome found)
    (hcopies' : Encoding.Outcome.Copies s' t' outcome' found')
    (h : Encoding.Outcome.Agrees ι clean clean' t t' found found') :
    Encoding.Outcome.Agrees ι arena arena' s s' outcome outcome' := by
  cases h with
  | adversarial h =>
    cases hcopies with
    | adversarial hsolution =>
      cases hcopies' with
      | adversarial hsolution' =>
        exact .adversarial (h.of_copies harena harena' hpaired hpaired' hsolution hsolution')
  | cooperative h =>
    cases hcopies with
    | cooperative hsolution =>
      cases hcopies' with
      | cooperative hsolution' =>
        exact .cooperative (h.of_copies harena harena' hpaired hpaired' hsolution hsolution')
  | bestEffort h =>
    cases hcopies with
    | bestEffort hresult =>
      cases hcopies' with
      | bestEffort hresult' =>
        exact .bestEffort (h.of_copies harena harena' hpaired hpaired' hresult hresult')

end Copies

namespace Encoding

open Manager

variable {domain : Domain} {mode mode' : AgentErrorMode} {encoding encoding' : Encoding}
  {manager compiled current : Manager}

/-- There is a copy of the encoding in a manager of its own, in which variables are ordered. -/
structure Shadowed (domain : Domain) (mode : AgentErrorMode) (encoding : Encoding)
    (current shadow : Manager) (clean : Encoding) : Prop where
  paired : current.Paired shadow
  stands : Stands shadow.registry shadow
  faithful : Faithful shadow.registry shadow.store domain mode clean
  copies : Encoding.Copies current.store shadow.store encoding clean

/-- At any time after it was compiled an encoding has such a copy. -/
theorem exists_shadowed (hs : manager.store.Replayable)
    (hsize : manager.registry.size < UInt32.size) (hconsistent : Consistent domain)
    (hcompile : (ofDomain domain mode).run.run manager = (.ok encoding, compiled))
    (hle : compiled ≤ current) (hcurrent : current.store.Replayable) :
    ∃ shadow clean, Shadowed domain mode encoding current shadow clean := by
  obtain ⟨clean, compiled', hcompile', hsound, hpaired, hcopies⟩ :=
    exists_compiled_cleared hs hsize hconsistent hcompile
  have hsize' : manager.cleared.registry.size < UInt32.size := hsize
  obtain ⟨-, -, hfaithful⟩ :=
    yields_ofDomain Store.sound_blank hsize' hconsistent clean compiled' hcompile'
  have hle' := hpaired.le_withRegistry hle
  exact ⟨compiled'.withRegistry current, clean, hpaired.withRegistry hcurrent hle, ⟨hsound, rfl⟩,
    hfaithful.mono hsound.toReduced hle'.1 hle'.2, hcopies.mono hle.1 le_rfl⟩

/-- Unless it uses up all positions, a procedure ends for the encoding as for the copy. -/
theorem Shadowed.exists_end {shadow last : Manager} {clean : Encoding} {algorithm : Algorithm}
    {maxIterations : Option Nat} {outcome : Except Failure Outcome}
    (h : Shadowed domain mode encoding current shadow clean)
    (hrun : (encoding.solve algorithm maxIterations).run.run current = (outcome, last))
    (hroom : outcome ≠ .error .full) :
    ∃ found later, (clean.solve algorithm maxIterations).run.run shadow = (found, later) ∧
      last.store.Paired later.store ∧
      Automaton.Copies last.store later.store encoding.automaton clean.automaton ∧
      SameEnd (Outcome.Copies last.store later.store) outcome found := by
  obtain ⟨found, later, hrun', hlast, hle, hle', hend⟩ :=
    (paced_solve h.paired h.copies algorithm maxIterations).exists_end hrun hroom
  exact ⟨found, later, hrun', hlast.store, h.copies.automaton.mono hle.1 hle'.1, hend⟩

/-- The runs end in the same way, unless one of them uses up all positions. -/
def Matches (ι : List Bool → List Bool) (encoding encoding' : Encoding) (store store' : Store)
    (outcome outcome' : Except Failure Outcome) : Prop :=
  outcome = .error .full ∨ outcome' = .error .full ∨
    SameEnd (Outcome.Agrees ι encoding.automaton encoding'.automaton store store') outcome outcome'

/-- Two encodings of a domain in any two managers are solved in the same way. -/
theorem Shadowed.matches {ι : List Bool → List Bool} {current' shadow shadow' last last' : Manager}
    {clean clean' : Encoding} {algorithm : Algorithm} {maxIterations : Option Nat}
    {outcome outcome' : Except Failure Outcome} (hcarries : Carries ι domain mode mode')
    (hdomain : domain.WellFormed) (h : Shadowed domain mode encoding current shadow clean)
    (h' : Shadowed domain mode' encoding' current' shadow' clean')
    (hrun : (encoding.solve algorithm maxIterations).run.run current = (outcome, last))
    (hrun' : (encoding'.solve algorithm maxIterations).run.run current' = (outcome', last')) :
    Matches ι encoding encoding' last.store last'.store outcome outcome' := by
  by_cases hroom : outcome = .error .full
  · exact .inl hroom
  by_cases hroom' : outcome' = .error .full
  · exact .inr (.inl hroom')
  obtain ⟨found, later, hfound, hpaired, harena, hend⟩ := h.exists_end hrun hroom
  obtain ⟨found', later', hfound', hpaired', harena', hend'⟩ := h'.exists_end hrun' hroom'
  have hsame := hcarries.solve_sameEnd hdomain h.stands h'.stands h.faithful h'.faithful algorithm
    maxIterations hfound hfound' hpaired.covers.room hpaired'.covers.room
  exact .inr (.inr (hend.of_ends hend' hsame fun _ _ _ _ hcopies hcopies' hagrees =>
    hagrees.of_copies harena harena' hpaired hpaired' hcopies hcopies'))

section Modes

variable {parts : DomainParts} {manager' compiled' current' last last' : Manager}
  {algorithm : Algorithm} {maxIterations : Option Nat} {outcome outcome' : Except Failure Outcome}

/-- Compiled in any two managers, once with illegal choices of the agent excluded and once with a
bit that remembers them, and solved in each at any later time, a domain is solved in the same way:
the states without the bit are those where it is not set, and states where it is set are lost. -/
theorem invariant_matches_errorBit (hparts : Domain.ofParts parts = .ok domain)
    (hconsistent : Consistent domain) (hs : manager.store.Replayable)
    (hs' : manager'.store.Replayable) (hsize : manager.registry.size < UInt32.size)
    (hsize' : manager'.registry.size < UInt32.size)
    (hcompile : (ofDomain domain .invariant).run.run manager = (.ok encoding, compiled))
    (hcompile' : (ofDomain domain .errorBit).run.run manager' = (.ok encoding', compiled'))
    (hle : compiled ≤ current) (hle' : compiled' ≤ current') (hcurrent : current.store.Replayable)
    (hcurrent' : current'.store.Replayable)
    (hrun : (encoding.solve algorithm maxIterations).run.run current = (outcome, last))
    (hrun' : (encoding'.solve algorithm maxIterations).run.run current' = (outcome', last')) :
    Matches (fun s => s ++ [false]) encoding encoding' last.store last'.store outcome outcome' := by
  have hdomain := Domain.wellFormed_of_ofParts hparts
  obtain ⟨shadow, clean, h⟩ := exists_shadowed hs hsize hconsistent hcompile hle hcurrent
  obtain ⟨shadow', clean', h'⟩ := exists_shadowed hs' hsize' hconsistent hcompile' hle' hcurrent'
  exact h.matches (carries_errorBit hdomain) hdomain h' hrun hrun'

/-- In a new manager the switch is realizable with and without the bit. -/
theorem switch_invariant_matches_errorBit :
    ∃ (manager compiled compiled' last last' : Manager) (encoding encoding' : Encoding)
      (outcome outcome' : Outcome),
      Manager.create ⟨1, 1⟩ {} = .ok manager ∧ Domain.ofParts switchParts = .ok switch ∧
      Consistent switch ∧ manager.store.Replayable ∧ manager.registry.size < UInt32.size ∧
      (ofDomain switch .invariant).run.run manager = (.ok encoding, compiled) ∧
      (ofDomain switch .errorBit).run.run manager = (.ok encoding', compiled') ∧
      compiled.store.Replayable ∧ compiled'.store.Replayable ∧
      (encoding.solve .adversarial none).run.run compiled = (.ok outcome, last) ∧
      (encoding'.solve .adversarial none).run.run compiled' = (.ok outcome', last') ∧
      outcome.realizable = true ∧
      Outcome.Agrees (fun s => s ++ [false]) encoding.automaton encoding'.automaton last.store
        last'.store outcome outcome' := by
  let manager : Manager := { store := .blank }
  have hs : manager.store.Replayable := Store.replayable_blank
  have hsize : manager.registry.size < UInt32.size := by decide
  have hparts : Domain.ofParts switchParts = .ok switch := rfl
  have hok : answersWith (ofDomain switch .invariant) manager (fun encoding compiled =>
      answersWith (encoding.solve .adversarial none) compiled fun outcome _ =>
        outcome.realizable) = true := by
    set_option maxRecDepth 1500 in cbv
  have hok' : answersWith (ofDomain switch .errorBit) manager (fun encoding compiled =>
      answersWith (encoding.solve .adversarial none) compiled fun _ _ => true) = true := by
    set_option maxRecDepth 1500 in cbv
  obtain ⟨encoding, compiled, hcompile, hok⟩ := exists_run_of_answersWith hok
  obtain ⟨outcome, last, hrun, hrealizable⟩ := exists_run_of_answersWith hok
  obtain ⟨encoding', compiled', hcompile', hok'⟩ := exists_run_of_answersWith hok'
  obtain ⟨outcome', last', hrun', -⟩ := exists_run_of_answersWith hok'
  have hcompiled := replayable_of_compiled hs hcompile
  have hcompiled' := replayable_of_compiled hs hcompile'
  refine ⟨manager, compiled, compiled', last, last', encoding, encoding', outcome, outcome', rfl,
    hparts, switch_consistent, hs, hsize, hcompile, hcompile', hcompiled, hcompiled', hrun, hrun',
    hrealizable, ?_⟩
  rcases invariant_matches_errorBit hparts switch_consistent hs hs hsize hsize hcompile hcompile'
    le_rfl le_rfl hcompiled hcompiled' hrun hrun' with hfull | hfull | hend
  · exact absurd hfull (by simp)
  · exact absurd hfull (by simp)
  · cases hend with
    | answered hagrees => exact hagrees

end Modes

end Encoding

end PlanningGame
