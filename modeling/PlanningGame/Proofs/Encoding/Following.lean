import Mathlib
import PlanningGame.Proofs.Automaton.Carrying
import PlanningGame.Proofs.Game.Choice
import PlanningGame.Proofs.Game.Unseen
import PlanningGame.Proofs.Encoding.Report

/-!
# Steps of a strategy

A strategy of the agent gives its outputs as values of variables. A step packs them into a number
and unpacks it again, and looks at the inputs beforehand only if the environment moves first. It
still does what the strategy does by itself: the outputs have the same bits in the arena and in the
encoding, and an agent that moves first has functions that test no input. An arena may be a
composition with an automaton that has no inputs and outputs of its own.
-/
namespace PlanningGame

namespace Game

variable {game : Game} {store : Store} {strategy : Strategy} {s : List Bool} {o o' : Valuation}

/-- A function that tests nothing unseen has the same value whatever the agent does not see. -/
theorem AllSighted.replaced_eq (h : game.AllSighted store strategy.functions)
    (hf : store.Founded) (ho : ∀ v ∉ game.unseen, o v = o' v) {v : Var}
    (hv : strategy.functions[v]?.isSome = true) :
    Diagram.replaced store strategy.functions (strategy.arena.valuation s o) v =
      Diagram.replaced store strategy.functions (strategy.arena.valuation s o') v := by
  obtain ⟨e, he⟩ := Option.isSome_iff_exists.1 hv
  have hsighted := h v e he
  unfold Diagram.replaced
  rw [he]
  exact hf.eval_congr (Store.Within.has hsighted hf) fun w hw => Valuation.assign_congr
    (ho w (Store.Within.mem_of_mem_support hsighted hf hw)) _ _

end Game

namespace Stepper

open Manager

variable {stepper : Stepper} {current : Manager} {strategy : Strategy} {state : List Bool}
  {action reaction : Nat}

/-- The code of a reaction on the inputs. All other variables are false. -/
def reactionLetters (encoding : Encoding) (reaction : Nat) : Valuation :=
  Valuation.assign (fun _ => false) encoding.inputs
    (Binary.encode reaction encoding.inputs.length)

/-- What is known of a reaction when the agent chooses. -/
def observed (encoding : Encoding) (starting : Player) (reaction : Nat) : Valuation :=
  match starting with
  | .environment => reactionLetters encoding reaction
  | .agent => fun _ => false

variable (stepper) in
/-- A step of a strategy is a step with the action that it chooses. -/
theorem run_strategyStep (hreaction : reaction < 2 ^ stepper.encoding.inputs.length)
    (hchoice : strategy.choice current.store state
      (observed stepper.encoding strategy.starting reaction) = .ok action) :
    (stepper.strategyStep strategy state reaction).run.run current =
      (stepper.step state action reaction).run.run current := by
  have hrun : (stepper.strategyStep strategy state reaction).run.run current =
      (ofExcept (strategy.choice current.store state
        (observed stepper.encoding strategy.starting reaction)) >>= fun action =>
          stepper.step state action reaction).run.run current := by
    unfold strategyStep
    dsimp only
    cases strategy.starting with
    | environment => rw [choiceBits_of_lt .reaction hreaction]; rfl
    | agent => rfl
  rw [hrun, hchoice, run_bind_of_ok (run_ofExcept_ok action current)]

/-- What an agent knows of a reaction differs from it in unseen inputs only. -/
theorem observed_eq {game : Game} {encoding : Encoding}
    (hinputs : encoding.inputs = game.arena.inputs) {v : Var} (hv : v ∉ game.unseen) :
    observed encoding game.starting reaction v = reactionLetters encoding reaction v := by
  cases hstarting : game.starting with
  | environment => rfl
  | agent =>
    have hmem : v ∉ encoding.inputs := fun hmem => hv ⟨hinputs ▸ hmem, hstarting⟩
    exact (Valuation.assign_of_not_mem hmem _ _).symm

end Stepper

namespace Encoding

open Manager Stepper

variable {registry : Registry} {store : Store} {domain : Domain} {mode : AgentErrorMode}
  {encoding : Encoding} {game : Game} {strategy : Strategy} {state : List Bool} {reaction : Nat}

theorem letters_of_not_mem_outputs {action : Nat} {v : Var} (hv : v ∉ encoding.outputs) :
    letters encoding action reaction v = reactionLetters encoding reaction v :=
  Valuation.assign_congr (Valuation.assign_of_not_mem hv _ _) _ _

section Choices

variable (h : Faithful registry store domain mode encoding)
include h

/-- A number that was packed from the values of the outputs gives them these values again. -/
theorem Faithful.letters_of_mem_outputs {Y : Valuation} {v : Var} (hv : v ∈ encoding.outputs) :
    letters encoding (Binary.decode (encoding.outputs.map Y)) reaction v = Y v := by
  have hletters := h.outputs_letters (Binary.decode (encoding.outputs.map Y)) reaction
  have hcode := Binary.encode_decode (encoding.outputs.map Y)
  rw [List.length_map] at hcode
  rw [hcode] at hletters
  exact List.map_inj_left.1 hletters v hv

/-- The strategy chooses a number that fits, and by itself it goes where the arena goes under this
number. -/
theorem Faithful.exists_choice_eq (reaction : Nat) (hf : store.Founded)
    (hguides : game.Guides store strategy)
    (hprotagonist : game.protagonist = .agent) (hinputs : encoding.inputs = game.arena.inputs)
    (houtputs : encoding.outputs = game.arena.outputs)
    (hstate : state.length = game.arena.initial.length) :
    ∃ action < 2 ^ encoding.outputs.length,
      strategy.choice store state (observed encoding game.starting reaction) = .ok action ∧
      strategy.next store state (reactionLetters encoding reaction) =
        game.arena.step store state (letters encoding action reaction) := by
  obtain ⟨arena, functions, starting, protagonist⟩ := strategy
  obtain ⟨rfl, rfl, rfl, hsighted, hcovers⟩ := hguides
  dsimp only at hsighted hcovers
  have hcovers : ∀ v : Var, functions[v]?.isSome = true ↔ v ∈ encoding.outputs := fun v => by
    rw [hcovers, Game.protagonistVars, hprotagonist, houtputs]
    rfl
  let Y := Diagram.replaced store functions
    (game.arena.valuation state (observed encoding game.starting reaction))
  have hchoice : Strategy.choice ⟨game.arena, functions, game.starting, game.protagonist⟩ store
      state (observed encoding game.starting reaction) =
        .ok (Binary.decode (encoding.outputs.map Y)) := by
    have hvars : game.protagonist.vars game.arena = encoding.outputs := by
      rw [hprotagonist, houtputs]
      rfl
    rw [Strategy.choice_eq hstate (fun v hv => (hcovers v).2 (hvars ▸ hv)), hvars]
  refine ⟨_, ?_, hchoice, ?_⟩
  · have hlt := Binary.decode_lt (encoding.outputs.map Y)
    rwa [List.length_map] at hlt
  unfold Strategy.next Strategy.output
  rw [if_pos hstate]
  refine congrArg (game.arena.step store state) (funext fun v => ?_)
  rw [Strategy.assign_functions]
  by_cases hv : v ∈ encoding.outputs
  · rw [if_pos ((hcovers v).2 hv), h.letters_of_mem_outputs hv]
    exact (hsighted.replaced_eq hf (fun w hw => observed_eq hinputs hw) ((hcovers v).2 hv)).symm
  · rw [if_neg (mt (hcovers v).1 hv), letters_of_not_mem_outputs hv]

end Choices

/-- The arena is the automaton of the encoding or a composition of it with an automaton that has no
inputs and outputs. If nothing is shared then the given variables are exposed in the second one. -/
inductive Hosts (encoding : Encoding) (exposed : Set Var) (compiled : Manager) :
    Automaton → Manager → Prop
  | own : Hosts encoding exposed compiled encoding.automaton compiled
  | composed {second arena : Automaton} {shared : List String} {current later : Manager}
      (hs : current.store.Replayable) (hle : compiled.store ≤ current.store)
      (hinputs : second.inputs = []) (houtputs : second.outputs = [])
      (hsecond : shared = [] → ∀ e ∈ second.next, current.store.Exposes exposed 0 e)
      (hrun : (encoding.automaton.compose second shared).run.run current = (.ok arena, later)) :
      Hosts encoding exposed compiled arena later

theorem Hosts.carries {exposed : Set Var} {compiled host : Manager} {arena : Automaton}
    (h : encoding.Hosts exposed compiled arena host) (hs : compiled.store.Replayable)
    (hexposes : encoding.Every (compiled.store.Exposes exposed 0)) :
    host.store.Replayable ∧ compiled.store ≤ host.store ∧
      encoding.automaton.Carries (host.store.Exposes exposed 0) arena := by
  cases h with
  | own => exact ⟨hs, le_rfl, rfl, rfl, le_rfl, hexposes.next⟩
  | composed hcurrent hle hinputs houtputs hsecond hrun =>
    obtain ⟨hhost, hle', hcarries⟩ := Automaton.yields_compose_kept
      (Diagram.kept_exposes .univ exposed) hcurrent hinputs houtputs
      (fun e he => (hexposes.next e he).mono hle) hsecond _ _ hrun
    exact ⟨hhost, hle.trans hle'.1, hcarries⟩

/-- A step of a strategy that was found for the agent is reported, with the action that the strategy
chooses and with the next state of the strategy, in any later manager. What an agent that moves
first does not know is not asked for, and is exposed in the arena and in the constraint. -/
theorem strategyStep_follows {attitude : Attitude} {manager compiled host current : Manager}
    {solving solved : Store} {goal space : Edge} {solution : Solution}
    (hs : manager.store.Replayable) (hsize : manager.registry.size < UInt32.size)
    (hcompile : (ofDomain domain mode).run.run manager = (.ok encoding, compiled))
    (harena : encoding.Hosts game.unseen compiled game.arena host)
    (hprotagonist : game.protagonist = .agent) (hsolving : solving.Replayable)
    (hhost : host.store ≤ solving) (hgoal : game.Sighted solving goal)
    (hspace : game.Sighted solving space)
    (hconstraint : solving.Exposes game.unseen 0 game.constraint)
    (hsolve : (game.solve attitude goal space).run.run solving = (.ok solution, solved))
    (hcurrent : current.store.Replayable) (hsolved : solved ≤ current.store)
    (hstate : state.length = game.arena.initial.length)
    (hreaction : reaction < 2 ^ encoding.inputs.length) :
    ∃ report last, (Stepper.strategyStep ⟨encoding, game.arena⟩ solution.strategy state
        reaction).run.run current = (.ok report, last) ∧
      solution.strategy.next current.store state (reactionLetters encoding reaction) =
        .ok report.next ∧
      solution.strategy.choice current.store state (observed encoding game.starting reaction) =
        .ok report.action := by
  obtain ⟨hcompiled, -, hexposes⟩ :=
    yields_ofDomain_exposes hs hsize game.unseen encoding compiled hcompile
  obtain ⟨-, hle₁, hcarries⟩ := harena.carries hcompiled hexposes
  have hexposed : game.Exposed solving :=
    ⟨hprotagonist, fun e he => (hcarries.next e he).mono hhost, hconstraint⟩
  obtain ⟨-, hle₂, hguides⟩ :=
    Game.yields_solve_guides hexposed hspace hsolving hgoal solution solved hsolve
  have hguides := hguides.mono hsolved
  have hle : compiled.store ≤ current.store := ((hle₁.trans hhost).trans hle₂).trans hsolved
  obtain ⟨hsound, -, h⟩ :=
    yieldsIn_ofDomain hs.regular hsize (fun h => False.elim h) encoding compiled hcompile
  have h := h.mono hsound.toFounded hle le_rfl
  obtain ⟨-, -, agentOk, hpermits⟩ := yields_ofDomain_permits hs hsize encoding compiled hcompile
  have hfounded := hcurrent.toFounded
  have hhas : encoding.Every current.store.Has :=
    Every.imp hexposes fun _ he => (he.mono hle).has hfounded
  obtain ⟨action, haction, hchoice, hnext⟩ := h.exists_choice_eq reaction hfounded hguides
    hprotagonist (h.inputs_eq.trans hcarries.inputs_eq.symm)
    (h.outputs_eq.trans hcarries.outputs_eq.symm) hstate
  obtain ⟨report, last, hrun, hreads⟩ := Stepper.exists_report ⟨encoding, game.arena⟩ hcurrent
    hhas (hpermits.mono hle) haction hreaction hstate (h.envErrorBit_lt.trans_le hcarries.length_le)
    fun place hplace => (h.agentErrorBit_lt hplace).trans_le hcarries.length_le
  have hstrategy := run_strategyStep ⟨encoding, game.arena⟩ hreaction
    (hguides.starting_eq ▸ hchoice)
  exact ⟨report, last, hstrategy.trans hrun, hnext.trans hreads.next,
    hreads.action_eq ▸ hchoice⟩

/-- Two agent actions and two reactions, none of which has an effect. -/
def inert : Domain where
  fluents := ["p"]
  initial := [false]
  actions := Domain.actionsByName [.ofParts "g" "s", .ofParts "g" "t", .ofParts "h" "s",
    .ofParts "h" "t"]
  goal := .ofList [0]
  goalForbidden := ∅
  invariants := []

/-- A state bit of its own, the variable 5, that is read together with the input 4. The input is
tested below this bit in the transition or in a constraint. -/
def covering (shared : List String) (inTransition : Bool) : ManagerM (Automaton × Edge) := do
  let id ← newStateVars 1
  let _ ← claimVars .alphabet shared
  let bit ← Diagram.literal 5
  let output ← Diagram.literal 3
  let input ← Diagram.literal 4
  let below ← Diagram.branch 5 input .one
  let next ← if inTransition then Diagram.branch 3 bit below else Diagram.agree output input
  let automaton ← Automaton.create id [false] [next] .one
  return (automaton, if inTransition then .one else below)

theorem yields_covering {manager : Manager} (hs : manager.store.Replayable) (shared : List String)
    (inTransition : Bool) :
    PlanningGame.Yields (fun m : Manager => m.store.Replayable) (covering shared inTransition)
      manager fun answer _ => answer.1.inputs = [] ∧ answer.1.outputs = [] ∧
        (inTransition = true → answer.2 = .one) := by
  have hP := Diagram.kept_within .univ
  have hliteral {m : Manager} {r : Registry} (hm : StandsIn Store.Replayable r m) (v : Var) :=
    yields_lift hm (hP.literal hm.sound (Set.mem_univ v))
  unfold covering
  refine (yields_newStateVars hs 1).bind fun id m₁ hs₁ _ _ => ?_
  refine (yields_claimVars hs₁ .alphabet shared).bind fun _ m₂ hs₂ _ _ => ?_
  have hm₂ : StandsIn Store.Replayable m₂.registry m₂ := ⟨hs₂, rfl⟩
  refine yields_of_stands (?_ : YieldsIn Store.Replayable m₂.registry _ m₂ fun answer _ =>
    answer.1.inputs = [] ∧ answer.1.outputs = [] ∧ (inTransition = true → answer.2 = .one))
      fun _ _ _ _ h => h
  refine (hliteral hm₂ 5).bind fun bit m₃ hm₃ _ hbit => ?_
  refine (hliteral hm₃ 3).bind fun output m₄ hm₄ hle₄ houtput => ?_
  refine (hliteral hm₄ 4).bind fun input m₅ hm₅ hle₅ hinput => ?_
  refine (yields_lift hm₅ (Diagram.keepsWithin_branch hm₅.sound (Set.mem_univ 5) hinput
    (hP.terminal rfl))).bind fun below m₆ hm₆ hle₆ hbelow => ?_
  have hbit := hP.mono hbit ((hle₄.trans hle₅).trans hle₆).1
  have houtput := hP.mono houtput (hle₅.trans hle₆).1
  have hinput := hP.mono hinput hle₆.1
  cases inTransition with
  | true =>
    refine (yields_lift hm₆ (Diagram.keepsWithin_branch hm₆.sound (Set.mem_univ 3) hbit
      hbelow)).bind fun next m₇ hm₇ _ _ => ?_
    exact (Automaton.yields_create_letters hm₇ id _ _ _).bind
      fun _ _ hlater _ h => yields_pure hlater ⟨h.1, h.2, fun _ => rfl⟩
  | false =>
    refine (yields_lift hm₆ (Diagram.keeps_ite hP hm₆.sound houtput hinput (hP.neg hinput))).bind
      fun next m₇ hm₇ _ _ => ?_
    exact (Automaton.yields_create_letters hm₇ id _ _ _).bind
      fun _ _ hlater _ h => yields_pure hlater ⟨h.1, h.2, nofun⟩

/-- The agent moves first and wants the bit to be set. -/
def coveringGame (shared : List String) (inTransition : Bool) :
    ManagerM (Encoding × Game × Edge) := do
  let encoding ← ofDomain inert .invariant
  let (second, constraint) ← covering shared inTransition
  let arena ← encoding.automaton.compose second shared
  let goal ← Diagram.literal 5
  return (encoding, { arena, starting := .agent, protagonist := .agent, constraint }, goal)

theorem exists_run_of_coveringGame {shared : List String} {inTransition : Bool}
    {manager host : Manager} {goal : Edge}
    (hrun : (coveringGame shared inTransition).run.run manager =
      (.ok (encoding, game, goal), host)) :
    ∃ compiled second current composed,
      (ofDomain inert .invariant).run.run manager = (.ok encoding, compiled) ∧
      (covering shared inTransition).run.run compiled =
        (.ok (second, game.constraint), current) ∧
      (encoding.automaton.compose second shared).run.run current =
        (.ok game.arena, composed) ∧
      (liftM (Diagram.literal 5) : ManagerM Edge).run.run composed = (.ok goal, host) ∧
      game.starting = .agent ∧ game.protagonist = .agent := by
  unfold coveringGame at hrun
  obtain ⟨_, compiled, hcompile, hrun⟩ := exists_run_of_bind hrun
  obtain ⟨⟨second, _⟩, current, hcovering, hrun⟩ := exists_run_of_bind hrun
  obtain ⟨_, composed, hcompose, hrun⟩ := exists_run_of_bind hrun
  obtain ⟨_, host, hgoal, hrun⟩ := exists_run_of_bind hrun
  obtain ⟨hanswer, rfl⟩ := Prod.mk.inj hrun
  obtain ⟨rfl, hgame⟩ := Prod.mk.inj (Except.ok.inj hanswer)
  obtain ⟨rfl, rfl⟩ := Prod.mk.inj hgame
  exact ⟨compiled, second, current, composed, hcompile, hcovering, hcompose, hgoal, rfl, rfl⟩

/-- What the check of a run of `coveringGame` looks at: in the state with no bit set, against the
second reaction, the strategy goes to one state by itself and a step of it goes to another. -/
def goesTo (own taken : List Bool) : Encoding × Game × Edge → Manager → Bool
  | (encoding, game, goal), host =>
    let state := [false, false, false]
    decide (encoding.inputs.length = 1 ∧ game.arena.inputs = [4] ∧
      game.arena.initial.length = 3 ∧ 4 ∉ host.store.support goal) &&
    answersWith (game.solve .adversarial goal .one) host.store fun solution solved =>
      decide (solution.strategy.next solved state (reactionLetters encoding 1) = .ok own) &&
      answersWith (strategyStep ⟨encoding, game.arena⟩ solution.strategy state 1)
        ⟨solved, host.registry⟩ fun report _ => decide (report.next = taken)

/-- A strategy was found for a goal without inputs, and a step of it goes where the strategy does
not go by itself. -/
def Astray (encoding : Encoding) (game : Game) (goal : Edge) (host : Manager) : Prop :=
  (∀ v ∈ host.store.support goal, v ∉ game.arena.inputs) ∧
    ∃ solution solved state reaction report last next,
      (game.solve .adversarial goal .one).run.run host.store = (.ok solution, solved) ∧
      state.length = game.arena.initial.length ∧ reaction < 2 ^ encoding.inputs.length ∧
      (strategyStep ⟨encoding, game.arena⟩ solution.strategy state reaction).run.run
        ⟨solved, host.registry⟩ = (.ok report, last) ∧
      solution.strategy.next solved state (reactionLetters encoding reaction) = .ok next ∧
      report.next ≠ next

theorem exists_of_goesTo {own taken : List Bool} {goal : Edge} {host : Manager}
    (h : goesTo own taken (encoding, game, goal) host = true) :
    (encoding.inputs.length = 1 ∧ game.arena.inputs = [4] ∧ game.arena.initial.length = 3 ∧
      4 ∉ host.store.support goal) ∧
    ∃ solution solved report last,
      (game.solve .adversarial goal .one).run.run host.store = (.ok solution, solved) ∧
      (strategyStep ⟨encoding, game.arena⟩ solution.strategy [false, false, false] 1).run.run
        ⟨solved, host.registry⟩ = (.ok report, last) ∧ report.next = taken ∧
      solution.strategy.next solved [false, false, false] (reactionLetters encoding 1) =
        .ok own := by
  unfold goesTo at h
  obtain ⟨hfacts, hsolve⟩ := Bool.and_eq_true_iff.1 h
  obtain ⟨solution, solved, hsolve, hsteps⟩ := exists_run_of_answersWith hsolve
  obtain ⟨hown, hstep⟩ := Bool.and_eq_true_iff.1 hsteps
  obtain ⟨report, last, hstep, htaken⟩ := exists_run_of_answersWith hstep
  exact ⟨of_decide_eq_true hfacts, solution, solved, report, last, hsolve, hstep,
    of_decide_eq_true htaken, of_decide_eq_true hown⟩

theorem astray_of_goesTo {own taken : List Bool} {goal : Edge} {host : Manager}
    (h : goesTo own taken (encoding, game, goal) host = true) (hne : taken ≠ own) :
    Astray encoding game goal host := by
  obtain ⟨⟨hinputs, harena, hinitial, hgoal⟩, solution, solved, report, last, hsolve, hstep,
    rfl, hown⟩ := exists_of_goesTo h
  refine ⟨fun v hv hmem => ?_, solution, solved, [false, false, false], 1, report, last, own,
    hsolve, hinitial.symm, by rw [hinputs]; decide, hstep, hown, hne⟩
  rw [harena, List.mem_singleton] at hmem
  exact hgoal (hmem ▸ hv)

/-- If the fluent is shared then the transition is put together again, in order, and the step goes
where the strategy goes. -/
theorem covering_step_follows :
    ∃ (compiled current composed host last : Manager) (solved : Store) (encoding : Encoding)
        (second : Automaton) (game : Game) (goal : Edge) (solution : Solution)
        (report : StepReport),
      (ofDomain inert .invariant).run.run { store := .blank } = (.ok encoding, compiled) ∧
      (covering ["p"] true).run.run compiled = (.ok (second, .one), current) ∧
      (encoding.automaton.compose second ["p"]).run.run current = (.ok game.arena, composed) ∧
      game.starting = .agent ∧ game.protagonist = .agent ∧ game.constraint = .one ∧
      (liftM (Diagram.literal 5) : ManagerM Edge).run.run composed = (.ok goal, host) ∧
      (game.solve .adversarial goal .one).run.run host.store = (.ok solution, solved) ∧
      (strategyStep ⟨encoding, game.arena⟩ solution.strategy [false, false, false] 1).run.run
        ⟨solved, host.registry⟩ = (.ok report, last) ∧
      solution.strategy.next solved [false, false, false] (reactionLetters encoding 1) =
        .ok report.next ∧
      solution.strategy.choice solved [false, false, false] (observed encoding .agent 1) =
        .ok report.action ∧
      report.next = [false, false, false] := by
  let manager : Manager := { store := .blank }
  have hs : manager.store.Replayable := Store.replayable_blank
  have hsize : manager.registry.size < UInt32.size := by decide
  have hok : answersWith (coveringGame ["p"] true) manager
      (goesTo [false, false, false] [false, false, false]) = true := by cbv
  obtain ⟨⟨encoding, game, goal⟩, host, hrun, htest⟩ := exists_run_of_answersWith hok
  obtain ⟨compiled, second, current, composed, hcompile, hcovering, hcompose, hgoal, hstarting,
    hprotagonist⟩ := exists_run_of_coveringGame hrun
  obtain ⟨hcompiled, -, -⟩ := yields_ofDomain_onVariables hs hsize encoding compiled hcompile
  obtain ⟨hcurrent, hle, hinputs, houtputs, hconstraint⟩ :=
    yields_covering hcompiled ["p"] true _ _ hcovering
  have hconstraint : game.constraint = .one := hconstraint rfl
  have hhosts : encoding.Hosts game.unseen compiled game.arena composed :=
    .composed hcurrent hle.1 hinputs houtputs (fun h => absurd h (by simp)) hcompose
  obtain ⟨-, -, hexposes⟩ := yields_ofDomain_exposes hs hsize game.unseen encoding compiled hcompile
  obtain ⟨hcomposed, -, hcarries⟩ := hhosts.carries hcompiled hexposes
  obtain ⟨⟨hinputs, harena, hinitial, -⟩, solution, solved, -, -, hsolve, -, -, hown⟩ :=
    exists_of_goesTo htest
  have hseen : (5 : Var) ∈ game.unseenᶜ := fun hunseen => by simpa [harena] using hunseen.1
  have hstands : StandsIn Store.Replayable composed.registry composed := ⟨hcomposed, rfl⟩
  obtain ⟨hm, hle', hgoal'⟩ := yields_lift hstands
    (game.kept_sighted.literal hcomposed hseen) goal host hgoal
  have hspace : game.Sighted host.store .one := game.kept_sighted.terminal rfl
  have hexposed : host.store.Exposes game.unseen 0 game.constraint :=
    hconstraint ▸ Store.Exposes.terminal rfl
  have hknown : game.Exposed host.store :=
    ⟨hprotagonist, fun e he => (hcarries.next e he).mono hle'.1, hexposed⟩
  obtain ⟨hsolved, -, -⟩ :=
    Game.yields_solve_guides hknown hspace hm.sound hgoal' solution solved hsolve
  let later : Manager := ⟨solved, host.registry⟩
  have hend : later.store.Replayable := hsolved
  have hstate : [false, false, false].length = game.arena.initial.length := hinitial.symm
  have hreaction : 1 < 2 ^ encoding.inputs.length := by rw [hinputs]; decide
  obtain ⟨report, last, hstep, hnext, hchoice⟩ := strategyStep_follows hs hsize hcompile hhosts
    hprotagonist hm.sound hle'.1 hgoal' hspace hexposed hsolve hend le_rfl hstate hreaction
  rw [hstarting] at hchoice
  exact ⟨compiled, current, composed, host, last, solved, encoding, second, game, goal, solution,
    report, hcompile, hconstraint ▸ hcovering, hcompose, hstarting, hprotagonist, hconstraint,
    hgoal, hsolve, hstep, hnext, hchoice, Except.ok.inj (hnext.symm.trans hown)⟩

/-- An input that is tested below the bit is left in the function of the output. This happens in a
transition of the second automaton if nothing is shared, and in the constraint. -/
theorem exists_step_astray :
    (∃ encoding game goal host, (coveringGame [] true).run.run { store := .blank } =
      (.ok (encoding, game, goal), host) ∧ Astray encoding game goal host) ∧
    ∃ encoding game goal host, (coveringGame [] false).run.run { store := .blank } =
      (.ok (encoding, game, goal), host) ∧ Astray encoding game goal host := by
  have htransition : answersWith (coveringGame [] true) { store := .blank }
      (goesTo [false, false, true] [false, false, false]) = true := by cbv
  have hconstraint : answersWith (coveringGame [] false) { store := .blank }
      (goesTo [false, false, false] [false, false, true]) = true := by cbv
  obtain ⟨⟨encoding, game, goal⟩, host, hrun, h⟩ := exists_run_of_answersWith htransition
  obtain ⟨⟨encoding', game', goal'⟩, host', hrun', h'⟩ := exists_run_of_answersWith hconstraint
  exact ⟨⟨encoding, game, goal, host, hrun, astray_of_goesTo h (by decide)⟩,
    encoding', game', goal', host', hrun', astray_of_goesTo h' (by decide)⟩

end Encoding

end PlanningGame
