import Mathlib
import PlanningGame.Proofs.Automaton.Eventually
import PlanningGame.Proofs.Encoding.Agreement
import PlanningGame.Proofs.Encoding.Temporal

/-!
# The goal of a domain as an automaton

If the goal of a domain asks for fluents to hold only, then it can be given by the automaton that
waits for them. A pair of a state and a state of the automaton that play comes to has the second
state of the automaton exactly if a goal was visited. When this happens for the first time the
automaton accepts in the goal itself, where the plain game ends, so up to there the two games make
the same moves.
-/
namespace PlanningGame

namespace Domain

/-- The names are those of the fluents that have to hold in a goal, and nothing else is asked of
it. -/
structure GoalNamed (domain : Domain) (names : List String) : Prop where
  positive : ∀ i, i ∉ domain.goalForbidden
  nodup : names.Nodup
  mem_iff : ∀ name, name ∈ names ↔ ∃ i ∈ domain.goal, domain.fluents[i]? = some name

end Domain

namespace Encoding

open Manager

variable {registry : Registry} {manager : Manager} {domain : Domain} {mode : AgentErrorMode}
  {encoding : Encoding} {names : List String} {s : List Bool} {q : Nat}

/-- The fluents come first among the names of the state bits. -/
theorem idxOf?_stateNames (hfluents : domain.fluents.Nodup) {i : Nat} {name : String}
    (hname : domain.fluents[i]? = some name) : (stateNames domain mode).idxOf? name = some i := by
  obtain ⟨hi, rfl⟩ := List.getElem?_eq_some_iff.1 hname
  unfold stateNames
  rw [List.append_assoc, List.idxOf?_eq_some_iff]
  refine ⟨by rw [List.length_append]; omega, List.getElem_append_left hi, fun j hj hsame => ?_⟩
  rw [List.getElem_append_left (hj.trans hi)] at hsame
  exact hj.ne (hfluents.getElem_inj_iff.1 hsame)

/-- The state of the automaton when it has read this state, and no goal before. -/
def ReadsGoal (domain : Domain) (s : List Bool) (q : Nat) : Prop :=
  q = 1 ∧ domain.isGoal s = .ok true ∨ q = 0 ∧ ¬ domain.isGoal s = .ok true

section Reading

variable (hdomain : domain.WellFormed) (hfluents : domain.fluents.Nodup)
  (hnames : domain.GoalNamed names) (hs : s.length = domain.fluents.length)
include hdomain hfluents hnames hs

/-- All bits of a letter are set exactly in a goal. -/
theorem reading_waiting_iff : reading domain mode (Dfa.waiting names) s + 1 = 2 ^ names.length ↔
    domain.isGoal s = .ok true := by
  let value (name : String) : Bool :=
    (((stateNames domain mode).idxOf? name).bind ((s ++ flags mode false false)[·]?)).getD false
  have hvalue : ∀ (i : Nat) (name : String), domain.fluents[i]? = some name →
      (value name = true ↔ s[i]? = some true) := by
    intro i name hname
    have hi : i < domain.fluents.length := (List.getElem?_eq_some_iff.1 hname).1
    have hplace : (stateNames domain mode).idxOf? name = some i :=
      idxOf?_stateNames hfluents hname
    have hi' : i < s.length := hs ▸ hi
    simp only [value, hplace, Option.bind_some, List.getElem?_append_left hi',
      List.getElem?_eq_getElem hi', Option.getD_some, Option.some.injEq]
  have hall : (∀ bit ∈ names.map value, bit = true) ↔ ∀ i ∈ domain.goal, s[i]? = some true := by
    rw [List.forall_mem_map]
    constructor
    · intro h i hi
      have hname := List.getElem?_eq_getElem (hdomain.goal_lt i hi)
      exact (hvalue i _ hname).1 (h _ ((hnames.mem_iff _).2 ⟨i, hi, hname⟩))
    · intro h name hmem
      obtain ⟨i, hi, hname⟩ := (hnames.mem_iff name).1 hmem
      exact (hvalue i name hname).2 (h i hi)
  have hkey := Binary.decode_add_one_eq_iff (names.map value)
  rw [List.length_map, hall] at hkey
  refine hkey.trans ?_
  rw [Domain.isGoal_eq_true_iff]
  exact (and_iff_left fun i hi => absurd hi (hnames.positive i)).symm

/-- The automaton that has waited so far accepts after reading a goal, and after no other state. -/
theorem readsGoal_move : ReadsGoal domain s
    ((Dfa.waiting names).move 0 (reading domain mode (Dfa.waiting names) s)) := by
  have hlt : reading domain mode (Dfa.waiting names) s < 2 ^ names.length :=
    (Dfa.waiting names).letter_lt _ _
  have hgoal : reading domain mode (Dfa.waiting names) s + 1 = 2 ^ names.length ↔
      domain.isGoal s = .ok true := reading_waiting_iff hdomain hfluents hnames hs
  rw [Dfa.move_waiting_zero hlt]
  split
  · next hlast => exact .inl ⟨rfl, hgoal.1 hlast⟩
  · next hlast => exact .inr ⟨rfl, mt hgoal.2 hlast⟩

omit hs in
theorem readsGoal_result (name reaction : String) (hs : s.length = domain.fluents.length) :
    (domain.result name reaction s).length = domain.fluents.length ∧
      ReadsGoal domain (domain.result name reaction s) ((Dfa.waiting names).move 0
        (reading domain mode (Dfa.waiting names) (domain.result name reaction s))) :=
  have hresult := (domain.result_length name reaction s).trans hs
  ⟨hresult, readsGoal_move hdomain hfluents hnames hresult⟩

end Reading

section Games

variable (hdomain : domain.WellFormed) (hfluents : domain.fluents.Nodup)
  (hnames : domain.GoalNamed names) (hs : s.length = domain.fluents.length)
  (hq : ReadsGoal domain s q)
include hdomain hfluents hnames hs hq

/-- The agent can make the automaton accept exactly if it wins. -/
theorem enforces_waiting_iff : Enforces domain mode (Dfa.waiting names) s q ↔ domain.Wins s := by
  constructor
  · intro h
    induction h with
    | accept hadmits happ haccepts =>
      obtain ⟨-, hgoal⟩ | ⟨rfl, -⟩ := hq
      · exact .goal hadmits happ hgoal
      · exact absurd (Dfa.accepts_waiting_iff.1 haccepts) (by decide)
    | @step s q chosen hadmits happ _ ih =>
      obtain ⟨-, hgoal⟩ | ⟨rfl, -⟩ := hq
      · exact .goal hadmits happ hgoal
      · refine .step hadmits happ fun reaction hgrounded => ?_
        obtain ⟨hresult, hreads⟩ :=
          readsGoal_result hdomain hfluents hnames chosen reaction hs
        exact ih reaction hgrounded hresult hreads
  · intro h
    induction h generalizing q with
    | goal hadmits happ hgoal =>
      obtain ⟨rfl, -⟩ | ⟨-, hnot⟩ := hq
      · exact .accept hadmits happ (Dfa.accepts_waiting_iff.2 rfl)
      · exact absurd hgoal hnot
    | @step s chosen hadmits happ _ ih =>
      obtain ⟨rfl, -⟩ | ⟨rfl, -⟩ := hq
      · exact .accept hadmits happ (Dfa.accepts_waiting_iff.2 rfl)
      · refine .step hadmits happ fun reaction hgrounded => ?_
        obtain ⟨hresult, hreads⟩ :=
          readsGoal_result hdomain hfluents hnames chosen reaction hs
        exact ih reaction hgrounded hresult hreads

/-- The environment can help to make the automaton accept exactly if it can help to the goal. -/
theorem attains_waiting_iff {k : Nat} : Attains domain mode (Dfa.waiting names) k s q ↔
    domain.ReachesWithin (fun t => domain.isGoal t = .ok true) k s := by
  constructor
  · intro h
    induction h with
    | accept hadmits happ haccepts =>
      obtain ⟨-, hgoal⟩ | ⟨rfl, -⟩ := hq
      · exact .target hadmits happ hgoal
      · exact absurd (Dfa.accepts_waiting_iff.1 haccepts) (by decide)
    | @step k s q chosen reaction hadmits happ hgrounded _ ih =>
      obtain ⟨-, hgoal⟩ | ⟨rfl, -⟩ := hq
      · exact .target hadmits happ hgoal
      · obtain ⟨hresult, hreads⟩ :=
          readsGoal_result hdomain hfluents hnames chosen reaction hs
        exact .step hadmits happ hgrounded (ih hresult hreads)
  · intro h
    induction h generalizing q with
    | target hadmits happ hgoal =>
      obtain ⟨rfl, -⟩ | ⟨-, hnot⟩ := hq
      · exact .accept hadmits happ (Dfa.accepts_waiting_iff.2 rfl)
      · exact absurd hgoal hnot
    | @step k s chosen reaction hadmits happ hgrounded _ ih =>
      obtain ⟨rfl, -⟩ | ⟨rfl, -⟩ := hq
      · exact .accept hadmits happ (Dfa.accepts_waiting_iff.2 rfl)
      · obtain ⟨hresult, hreads⟩ :=
          readsGoal_result hdomain hfluents hnames chosen reaction hs
        exact .step hadmits happ hgrounded (ih hresult hreads)

end Games

/-- Two regions are the same if they agree on what is won and on what is lost. -/
theorem region_eq_of_iff {region region' : Region} (hwinning : region = .winning ↔ region' = .winning)
    (hlosing : region ≠ .losing ↔ region' ≠ .losing) : region = region' := by
  cases region <;> cases region' <;> simp_all

section Compiled

variable {parts : DomainParts} {compiled current later current' later' : Manager}
  (hparts : Domain.ofParts parts = .ok domain) (hconsistent : Consistent domain)
  (hnames : domain.GoalNamed names) (hlength : names.length ≤ Dfa.maxAlphabet)
  (hcompile : (ofDomain domain mode).run.run manager = (.ok encoding, compiled))
  (hsize : manager.registry.size < UInt32.size) (hle : compiled ≤ current)
  (hle' : compiled ≤ current') (hsize' : current'.registry.size < UInt32.size)
  {maxIterations maxIterations' : Option Nat} {result result' : BestEffort}
include hparts hconsistent hnames hlength hcompile hsize hle hle' hsize'

theorem best_efforts_agree_of_sound (hs : manager.store.Sound) (hcurrent : current.store.Sound)
    (hcurrent' : current'.store.Sound)
    (hsolve : (encoding.solveBestEffort maxIterations).run.run current = (.ok result, later))
    (hsolve' : (encoding.solveTemporal (Dfa.waiting names) maxIterations').run.run current' =
      (.ok result', later')) :
    result.adversarial.realizable = result'.adversarial.realizable ∧
      result.region later.store result.arena.initial =
        result'.region later'.store result'.arena.initial := by
  have hdomain := Domain.wellFormed_of_ofParts hparts
  have hfluents := Domain.fluents_nodup_of_ofParts hparts
  obtain ⟨hsound, -, hfaithful⟩ := yields_ofDomain hs hsize hconsistent encoding compiled hcompile
  obtain rfl := hfaithful.domain_eq
  obtain rfl := hfaithful.mode_eq
  have hbest := hfaithful.mono hsound.toReduced hle.1 hle.2
  have hm : Stands current.registry current := ⟨hcurrent, rfl⟩
  obtain ⟨-, -, hresult⟩ :=
    hbest.yields_solveBestEffort hm hdomain maxIterations result later hsolve
  obtain ⟨-, -, hresult'⟩ := (hfaithful.mono hsound.toReduced hle'.1 hle'.2).yields_solveTemporal
    hcurrent' hsize' hdomain (Dfa.wellFormed_waiting hnames.nodup hlength) maxIterations'
    result' later' hsolve'
  have hstart : ReadsGoal encoding.domain encoding.domain.initial ((Dfa.waiting names).move 0
      (reading encoding.domain encoding.mode (Dfa.waiting names) encoding.domain.initial)) :=
    readsGoal_move hdomain hfluents hnames hdomain.initial_length
  have hrealizable : result.adversarial.realizable = true ↔
      result'.adversarial.realizable = true :=
    (hresult.realizable_iff hdomain).trans ((hresult'.adversarial.realizable_iff
      hdomain).trans
        (enforces_waiting_iff hdomain hfluents hnames hdomain.initial_length hstart)).symm
  refine ⟨Bool.eq_iff_iff.2 hrealizable, region_eq_of_iff ?_ ?_⟩
  · rw [hresult.region_initial_eq_winning_iff hbest hdomain,
      hresult'.region_initial_eq_winning_iff, hrealizable]
  · rw [hresult.region_initial_ne_losing_iff hbest hdomain,
      hresult'.region_initial_ne_losing_iff hdomain]
    exact exists_congr fun k =>
      (attains_waiting_iff hdomain hfluents hnames hdomain.initial_length hstart).symm

/-- Compiled in any manager, a domain whose goal asks for fluents to hold is solved by a best effort
for its goal as by one for the automaton that waits for these fluents, named in any order: both are
realizable against every environment, or none is, and the initial states lie in the same region. -/
theorem best_efforts_agree (hs : manager.store.Replayable) (hcurrent : current.store.Replayable)
    (hcurrent' : current'.store.Replayable) :
    ∃ dfa, Dfa.eventuallyAll names = .ok dfa ∧
      ((encoding.solveBestEffort maxIterations).run.run current = (.ok result, later) →
        (encoding.solveTemporal dfa maxIterations').run.run current' = (.ok result', later') →
          result.adversarial.realizable = result'.adversarial.realizable ∧
            result.region later.store result.arena.initial =
              result'.region later'.store result'.arena.initial) := by
  refine ⟨_, Dfa.eventuallyAll_eq hnames.nodup hlength, fun hsolve hsolve' => ?_⟩
  obtain ⟨encoding', compiled', hcompile', hsound, hpaired, hcopies⟩ :=
    exists_compiled_cleared hs hsize hconsistent hcompile
  obtain ⟨best, last, hrun, hlast, -, hbest⟩ :=
    (paced_solveBestEffort (hpaired.withRegistry hcurrent hle) (hcopies.mono hle.1 le_rfl)
      maxIterations).exists_answer hsolve
  obtain ⟨best', last', hrun', hlast', -, hbest'⟩ :=
    (paced_solveTemporal (hpaired.withRegistry hcurrent' hle') (hcopies.mono hle'.1 le_rfl)
      (Dfa.waiting names) maxIterations').exists_answer hsolve'
  have hagree := best_efforts_agree_of_sound hparts hconsistent hnames hlength hcompile' hsize
    (hpaired.le_withRegistry hle) (hpaired.le_withRegistry hle') hsize' Store.sound_blank hsound
    hsound hrun hrun'
  rwa [hbest.adversarial.realizable_eq, hbest'.adversarial.realizable_eq, hbest.arena.initial_eq,
    hbest'.arena.initial_eq, hbest.region_eq hlast.store, hbest'.region_eq hlast'.store] at hagree

end Compiled

theorem switch_goalNamed : switch.GoalNamed ["p"] := by
  refine ⟨fun i => Std.TreeSet.not_mem_emptyc, by decide, fun name => ?_⟩
  have hgoal : ∀ i, i ∈ switch.goal ↔ i = 0 := fun i => by
    have heq : switch.goal = .ofList [0] := rfl
    rw [heq]
    simpa using eq_comm
  simp only [hgoal, exists_eq_left, List.mem_singleton]
  exact ⟨fun h => h ▸ rfl, fun h => (Option.some.inj h).symm⟩

/-- In a new manager the switch is compiled, and solved for its goal and for the automaton that
waits for it; both agree. -/
theorem switch_best_efforts_agree :
    ∃ (manager compiled later later' : Manager) (encoding : Encoding) (result result' : BestEffort),
      Manager.create ⟨1, 1⟩ {} = .ok manager ∧ Domain.ofParts switchParts = .ok switch ∧
      Consistent switch ∧ switch.GoalNamed ["p"] ∧ manager.store.Replayable ∧
      manager.registry.size < UInt32.size ∧
      (ofDomain switch .invariant).run.run manager = (.ok encoding, compiled) ∧
      compiled.store.Replayable ∧ compiled.registry.size < UInt32.size ∧
      (encoding.solveBestEffort none).run.run compiled = (.ok result, later) ∧
      (encoding.solveTemporal (Dfa.waiting ["p"]) none).run.run compiled = (.ok result', later') ∧
      result.adversarial.realizable = result'.adversarial.realizable ∧
      result.region later.store result.arena.initial =
        result'.region later'.store result'.arena.initial := by
  let manager : Manager := { store := .blank }
  have hs : manager.store.Replayable := Store.replayable_blank
  have hsize : manager.registry.size < UInt32.size := by decide
  have hparts : Domain.ofParts switchParts = .ok switch := rfl
  have hok : answersWith (ofDomain switch .invariant) manager (fun encoding compiled =>
      answersWith (encoding.solveBestEffort none) compiled fun _ _ =>
        answersWith (encoding.solveTemporal (Dfa.waiting ["p"]) none) compiled fun _ _ =>
          compiled.registry.size.ble 10) = true := by
    set_option maxRecDepth 1500 in cbv
  obtain ⟨encoding, compiled, hcompile, hok⟩ := exists_run_of_answersWith hok
  obtain ⟨result, later, hsolve, hok⟩ := exists_run_of_answersWith hok
  obtain ⟨result', later', hsolve', hok⟩ := exists_run_of_answersWith hok
  have hcompiledSize : compiled.registry.size < UInt32.size :=
    (Nat.le_of_ble_eq_true hok).trans_lt (by decide)
  have hcompiled := replayable_of_compiled hs hcompile
  obtain ⟨dfa, hdfa, hagree⟩ := best_efforts_agree hparts switch_consistent switch_goalNamed
    (by decide) hcompile hsize le_rfl le_rfl hcompiledSize hs hcompiled hcompiled
  obtain rfl := Except.ok.inj ((Dfa.eventuallyAll_eq (by decide) (by decide)).symm.trans hdfa)
  obtain ⟨hrealizable, hregion⟩ := hagree hsolve hsolve'
  exact ⟨manager, compiled, later, later', encoding, result, result', rfl, hparts,
    switch_consistent, switch_goalNamed, hs, hsize, hcompile, hcompiled, hcompiledSize, hsolve,
    hsolve', hrealizable, hregion⟩

end Encoding

end PlanningGame
