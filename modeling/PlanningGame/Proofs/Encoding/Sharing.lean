import Mathlib
import PlanningGame.Proofs.Encoding.Clashes
import PlanningGame.Proofs.Encoding.Matching

/-!
# Domains that share a manager

A domain that is compiled in a manager which others use as well gets other variables than in a new
one, in another order, and finds the diagrams of others there. None of this matters for what is
solved. The two encodings are those of one domain, so their games end in the same way, and a new
manager never lacks a name or a number that the shared one had.
-/
namespace PlanningGame.Encoding

open Manager

variable {parts : DomainParts} {domain : Domain} {mode : AgentErrorMode}
  {origin manager compiled current fresh : Manager} {encoding : Encoding}
  {sizes sizes' : TableSizes} {journal journal' : Journal}

/-- A new manager has the names and numbers for every domain that some manager compiles. -/
theorem completes_ofDomain_of_compiled (hparts : Domain.ofParts parts = .ok domain)
    (hconsistent : Consistent domain) (hs : manager.store.Replayable)
    (hsize : manager.registry.size < UInt32.size)
    (hcompile : (ofDomain domain mode).run.run manager = (.ok encoding, compiled))
    (hfresh : Manager.create sizes' journal' = .ok fresh) :
    Completes (ofDomain domain mode) fresh := by
  have hdomain := Domain.wellFormed_of_ofParts hparts
  obtain ⟨-, hsound, hempty⟩ := paired_of_create hfresh
  obtain ⟨clean, compiled', hcompile', -, -, -⟩ :=
    exists_compiled_cleared hs hsize hconsistent hcompile
  have hsize' : manager.cleared.registry.size < UInt32.size := hsize
  obtain ⟨-, -, hfaithful⟩ :=
    yields_ofDomain Store.sound_blank hsize' hconsistent clean compiled' hcompile'
  have hlength := hfaithful.placed.length_lt
  rw [hfaithful.length_stateNames, hfaithful.placed.inputs_fit.length_eq,
    hfaithful.placed.outputs_fit.length_eq] at hlength
  refine completes_ofDomain hsound hdomain (Domain.fluents_nodup_of_ofParts hparts)
    (fun _ => hconsistent) ?_ ?_
  · rw [hempty]
    exact (namesFree_of_ofDomain hs.regular hcompile).empty
  · rw [hempty]
    exact (Nat.zero_add _).trans_lt hlength

theorem paired_of_compiled (h : manager.Paired manager)
    (hcompile : (ofDomain domain mode).run.run manager = (.ok encoding, compiled)) :
    compiled.Paired compiled := by
  have hkeeps := (paced_ofDomain h domain mode).keeps (by rw [hcompile]; simp)
  rw [hcompile] at hkeeps
  exact hkeeps.1

/-- Whatever happened in a manager before a domain is compiled there, and whatever happens between
that and solving it: a new manager compiles the domain as well, and each procedure ends there in the
same way. This is so unless positions run out. -/
theorem matches_in_new_manager (hparts : Domain.ofParts parts = .ok domain)
    (hconsistent : Consistent domain) (hcreate : Manager.create sizes journal = .ok origin)
    (hbefore : origin.Leads manager) (hsize : manager.registry.size < UInt32.size)
    (hcompile : (ofDomain domain mode).run.run manager = (.ok encoding, compiled))
    (hbetween : compiled.Leads current) (hfresh : Manager.create sizes' journal' = .ok fresh) :
    ((ofDomain domain mode).run.run fresh).1 = .error .full ∨
      ∃ encoding' compiled', (ofDomain domain mode).run.run fresh = (.ok encoding', compiled') ∧
        ∀ (algorithm : Algorithm) (maxIterations : Option Nat),
          Matches id encoding encoding'
            ((encoding.solve algorithm maxIterations).run.run current).2.store
            ((encoding'.solve algorithm maxIterations).run.run compiled').2.store
            ((encoding.solve algorithm maxIterations).run.run current).1
            ((encoding'.solve algorithm maxIterations).run.run compiled').1 := by
  have hdomain := Domain.wellFormed_of_ofParts hparts
  obtain ⟨hmanager, -⟩ := hbefore.keeps (paired_of_create hcreate).1
  obtain ⟨hcurrent, hle⟩ := hbetween.keeps (paired_of_compiled hmanager hcompile)
  obtain ⟨hnew, -, hempty⟩ := paired_of_create hfresh
  have hcompletes := completes_ofDomain_of_compiled hparts hconsistent hmanager.store.left hsize
    hcompile hfresh
  refine or_iff_not_imp_left.2 fun hroom => ?_
  obtain ⟨encoding', compiled', hcompile'⟩ := hcompletes.exists_answer hroom
  have hcompiled' := paired_of_compiled hnew hcompile'
  have hsize' : fresh.registry.size < UInt32.size := by rw [hempty]; decide
  obtain ⟨shadow, clean, h⟩ := exists_shadowed hmanager.store.left hsize hconsistent hcompile hle
    hcurrent.store.left
  obtain ⟨shadow', clean', h'⟩ := exists_shadowed hnew.store.left hsize' hconsistent hcompile'
    le_rfl hcompiled'.store.left
  exact ⟨encoding', compiled', hcompile', fun algorithm maxIterations =>
    h.matches (carries_id domain mode) hdomain h' rfl rfl⟩

/-- The lamp is compiled first, and once more before the switch is solved. -/
theorem switch_matches_in_new_manager :
    ∃ (origin manager compiled compiled' current last last' : Manager)
      (encoding encoding' : Encoding) (outcome outcome' : Outcome),
      Manager.create ⟨1, 1⟩ {} = .ok origin ∧ Domain.ofParts switchParts = .ok switch ∧
      Consistent switch ∧ origin.Leads manager ∧ manager.registry.size < UInt32.size ∧
      (ofDomain switch .invariant).run.run manager = (.ok encoding, compiled) ∧
      compiled.Leads current ∧ origin.registry.size < manager.registry.size ∧
      (ofDomain switch .invariant).run.run origin = (.ok encoding', compiled') ∧
      (encoding.solve .adversarial none).run.run current = (.ok outcome, last) ∧
      (encoding'.solve .adversarial none).run.run compiled' = (.ok outcome', last') ∧
      outcome.realizable = true ∧
      Outcome.Agrees id encoding.automaton encoding'.automaton last.store last'.store outcome
        outcome' := by
  let origin : Manager := { store := .blank }
  have hcreate : Manager.create ⟨1, 1⟩ {} = .ok origin := rfl
  have hok : answersWith (Call.compile lamp .invariant).run origin (fun _ manager =>
      answersWith (ofDomain switch .invariant) manager fun encoding compiled =>
        answersWith (Call.compile lamp .errorBit).run compiled fun _ current =>
          answersWith (encoding.solve .adversarial none) current fun outcome _ =>
            outcome.realizable && decide (0 < manager.registry.size) &&
              decide (manager.registry.size < UInt32.size)) = true := by
    set_option maxRecDepth 1500 in cbv
  have hok' : answersWith (ofDomain switch .invariant) origin (fun encoding' compiled' =>
      answersWith (encoding'.solve .adversarial none) compiled' fun _ _ => true) = true := by
    set_option maxRecDepth 1500 in cbv
  obtain ⟨_, manager, hcall, hok⟩ := exists_run_of_answersWith hok
  obtain ⟨encoding, compiled, hcompile, hok⟩ := exists_run_of_answersWith hok
  obtain ⟨_, current, hcall', hok⟩ := exists_run_of_answersWith hok
  obtain ⟨outcome, last, hrun, hok⟩ := exists_run_of_answersWith hok
  obtain ⟨encoding', compiled', hcompile', hok'⟩ := exists_run_of_answersWith hok'
  obtain ⟨outcome', last', hrun', -⟩ := exists_run_of_answersWith hok'
  rw [Bool.and_eq_true, Bool.and_eq_true, decide_eq_true_eq, decide_eq_true_eq] at hok
  obtain ⟨⟨hrealizable, hgrown⟩, hsize⟩ := hok
  have hparts : Domain.ofParts switchParts = .ok switch := rfl
  have hbefore : origin.Leads manager := leads_of_run (by trivial) hcall
  have hbetween : compiled.Leads current := leads_of_run (by trivial) hcall'
  refine ⟨origin, manager, compiled, compiled', current, last, last', encoding, encoding', outcome,
    outcome', hcreate, hparts, switch_consistent, hbefore, hsize, hcompile, hbetween, hgrown,
    hcompile', hrun, hrun', hrealizable, ?_⟩
  rcases matches_in_new_manager hparts switch_consistent hcreate hbefore hsize hcompile hbetween
    hcreate with hfull | ⟨encoding'', compiled'', hcompile'', hmatches⟩
  · rw [hcompile'] at hfull
    exact absurd hfull (by simp)
  obtain ⟨heq, rfl⟩ := Prod.mk.inj (hcompile'.symm.trans hcompile'')
  obtain rfl := Except.ok.inj heq
  have hmatch := hmatches .adversarial none
  rw [hrun, hrun'] at hmatch
  rcases hmatch with hfull | hfull | hend
  · exact absurd hfull (by simp)
  · exact absurd hfull (by simp)
  · cases hend with
    | answered hagrees => exact hagrees

end PlanningGame.Encoding
