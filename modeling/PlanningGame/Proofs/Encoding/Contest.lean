import Mathlib
import PlanningGame.Proofs.Game.Contest
import PlanningGame.Proofs.Encoding.Agreement
import PlanningGame.Proofs.Encoding.Transition

/-!
# The same domain encoded twice

A domain may be encoded over different variables, with the bits of the one state found again in the
other. If no choice that play may use is judged differently, and leads to different states, then the
games of one encoding are found again within those of the other. So every procedure ends in the same
way for both.
-/
namespace PlanningGame

/-- The results agree: the same solutions exist and agree, and every state lies in the same
region. -/
structure BestEffort.Agrees (ι : List Bool → List Bool) (arena arena' : Automaton)
    (store store' : Store) (result result' : BestEffort) : Prop where
  adversarial : Solution.Agrees ι arena arena' store store' result.adversarial result'.adversarial
  cooperative : Option.Rel (Solution.Agrees ι arena arena' store store') result.cooperative
    result'.cooperative
  region : ∀ s : List Bool, s.length = arena.stateVars.length →
    result'.region store' (ι s) = result.region store s
  losing : ∀ t : List Bool, t.length = arena'.stateVars.length →
    (∀ s : List Bool, s.length = arena.stateVars.length → t ≠ ι s) →
      result'.region store' t = .losing

/-- Outcomes of the same procedure that agree. -/
inductive Encoding.Outcome.Agrees (ι : List Bool → List Bool) (arena arena' : Automaton)
    (store store' : Store) : Encoding.Outcome → Encoding.Outcome → Prop
  | adversarial {solution solution' : Solution} :
      Solution.Agrees ι arena arena' store store' solution solution' →
      Encoding.Outcome.Agrees ι arena arena' store store' (.adversarial solution)
        (.adversarial solution')
  | cooperative {solution solution' : Solution} :
      Solution.Agrees ι arena arena' store store' solution solution' →
      Encoding.Outcome.Agrees ι arena arena' store store' (.cooperative solution)
        (.cooperative solution')
  | bestEffort {result result' : BestEffort} :
      BestEffort.Agrees ι arena arena' store store' result result' →
      Encoding.Outcome.Agrees ι arena arena' store store' (.bestEffort result) (.bestEffort result')

/-- If the solutions agree then so do the regions. -/
theorem BestEffort.agrees_of_solutions {ι : List Bool → List Bool} {arena arena' : Automaton}
    {store store' : Store} {adversarial adversarial' : Solution}
    {cooperative cooperative' : Option Solution}
    (hadversarial : Solution.Agrees ι arena arena' store store' adversarial adversarial')
    (hcooperative : Option.Rel (Solution.Agrees ι arena arena' store store') cooperative
      cooperative') :
    BestEffort.Agrees ι arena arena' store store' ⟨arena, adversarial, cooperative⟩
      ⟨arena', adversarial', cooperative'⟩ := by
  refine ⟨hadversarial, hcooperative, fun s hs => ?_, fun t ht hnot => ?_⟩
  · unfold BestEffort.region
    dsimp only
    rw [hadversarial.winning.inside s hs]
    cases hcooperative with
    | none => rfl
    | some hsolution =>
      dsimp only
      rw [hsolution.winning.inside s hs]
  · unfold BestEffort.region
    dsimp only
    rw [hadversarial.winning.outside t ht hnot, if_neg Bool.false_ne_true]
    cases hcooperative with
    | none => rfl
    | some hsolution =>
      dsimp only
      rw [hsolution.winning.outside t ht hnot, if_neg Bool.false_ne_true]

namespace Encoding

open Manager Diagram Game

variable {registry registry' : Registry} {manager manager' : Manager} {domain : Domain}
  {mode mode' : AgentErrorMode} {encoding encoding' : Encoding} {attitude : Attitude}
  {maxIterations : Option Nat} {Q Q' : List Bool → Prop} {ι : List Bool → List Bool}
  {later later' : Store} {c c' : Contest}

section Poses

/-- The game of an encoding for a property of states. -/
structure Poses (registry : Registry) (domain : Domain) (mode : AgentErrorMode)
    (encoding : Encoding) (attitude : Attitude) (maxIterations : Option Nat)
    (Q : List Bool → Prop) (c : Contest) : Prop where
  arena_eq : c.arena = encoding.automaton
  attitude_eq : c.attitude = attitude
  maxIterations_eq : c.maxIterations = maxIterations
  sound : c.store.Sound
  faithful : Faithful registry c.store domain mode encoding
  space : c.store.Denotes c.space fun a =>
    Usable domain (encoding.automaton.stateOf a) (encoding.action a)
  goal : c.store.Denotes c.goal fun a =>
    Usable domain (encoding.automaton.stateOf a) (encoding.action a) ∧
      Q (encoding.automaton.stateOf a)

theorem Poses.posed (h : Poses registry domain mode encoding attitude maxIterations Q c) :
    c.Posed := by
  obtain ⟨store, arena, attitude, goal, space, maxIterations⟩ := c
  obtain rfl : arena = encoding.automaton := h.arena_eq
  have hclosed : (agentGame encoding.automaton maxIterations).Closed store goal space :=
    h.faithful.game_closed (Q := fun s name => Usable domain s name ∧ Q s) h.sound.toReduced h.space
      h.goal
  exact ⟨h.sound, hclosed, h.faithful.placed.outputs_fit.ne_zero⟩

open Classical in
/-- The states of one way to encode a domain are found among those of another: they are judged
alike, and the next states are the same. No other state may be used for play. -/
structure Carries (ι : List Bool → List Bool) (domain : Domain) (mode mode' : AgentErrorMode) :
    Prop where
  length : ∀ s : List Bool, s.length = (stateNames domain mode).length →
    (ι s).length = (stateNames domain mode').length
  initial : initialState domain mode' = ι (initialState domain mode)
  usable_iff : ∀ s : List Bool, s.length = (stateNames domain mode).length → ∀ name,
    Usable domain (ι s) name ↔ Usable domain s name
  next_eq : ∀ s : List Bool, s.length = (stateNames domain mode).length → ∀ name reaction,
    Usable domain s name →
      ((Bit.all domain mode').map fun bit => decide (bit.Next domain (ι s) name reaction)) =
        ι ((Bit.all domain mode).map fun bit => decide (bit.Next domain s name reaction))
  envError : ∀ s : List Bool, s.length = (stateNames domain mode).length →
    (ι s)[domain.fluents.length]? = s[domain.fluents.length]?
  isGoal : ∀ s : List Bool, s.length = (stateNames domain mode).length →
    (domain.isGoal (ι s) = .ok true ↔ domain.isGoal s = .ok true)
  outside : ∀ t : List Bool, t.length = (stateNames domain mode').length →
    (∀ s : List Bool, s.length = (stateNames domain mode).length → t ≠ ι s) → ∀ name,
      ¬ Usable domain t name

theorem carries_id (domain : Domain) (mode : AgentErrorMode) : Carries id domain mode mode where
  length _ hs := hs
  initial := rfl
  usable_iff _ _ _ := Iff.rfl
  next_eq _ _ _ _ _ := rfl
  envError _ _ := rfl
  isGoal _ _ := Iff.rfl
  outside t ht hnot := absurd rfl (hnot t ht)

/-- A state without the bit `agent_err` as fluents and the bit `env_err`. -/
theorem exists_append_of_invariant {s : List Bool}
    (hs : s.length = (stateNames domain .invariant).length) :
    ∃ fluents envError, fluents.length = domain.fluents.length ∧
      s = fluents ++ flags .invariant envError false := by
  have hlength : s.length = domain.fluents.length + 1 := by simpa [stateNames] using hs
  obtain rfl | ⟨fluents, envError, rfl⟩ := s.eq_nil_or_concat'
  · simp at hlength
  · exact ⟨fluents, envError, by simpa using hlength, rfl⟩

theorem append_false (fluents : List Bool) (envError : Bool) :
    fluents ++ flags .invariant envError false ++ [false] =
      fluents ++ flags .errorBit envError false := by
  simp [flags]

open Classical in
/-- After a usable choice the bit `agent_err` is not set, and the other bits do not depend on it. -/
theorem map_next_errorBit (hdomain : domain.WellFormed) {s : List Bool}
    (hs : s.length = (stateNames domain .invariant).length) {name reaction : Option String}
    (husable : Usable domain s name) :
    ((Bit.all domain .errorBit).map fun bit =>
        decide (bit.Next domain (s ++ [false]) name reaction)) =
      ((Bit.all domain .invariant).map fun bit => decide (bit.Next domain s name reaction)) ++
        [false] := by
  have hlength : s.length = domain.fluents.length + 1 := by simpa [stateNames] using hs
  have hkept : ∀ i ≤ domain.fluents.length, (s ++ [false])[i]? = s[i]? := fun i hi =>
    List.getElem?_append_left (by omega)
  have hsame : ∀ bit ∈ Bit.all domain .invariant,
      (bit.Next domain (s ++ [false]) name reaction ↔ bit.Next domain s name reaction) := by
    intro bit hbit
    simp only [Bit.all, Bit.errors, List.append_nil, List.mem_append, List.mem_map,
      List.mem_range, List.mem_singleton] at hbit
    obtain ⟨i, hi, rfl⟩ | rfl := hbit
    · simp only [Bit.Next, hkept i hi.le]
    · simp only [Bit.Next, hkept _ le_rfl]
  have hagent : ¬ Bit.agentError.Next domain (s ++ [false]) name reaction := by
    rintro (hset | hnone)
    · rw [List.getElem?_append_right (by omega), hlength, Nat.sub_self] at hset
      simp at hset
    · obtain ⟨fluents, envError, hfluents, rfl⟩ := exists_append_of_invariant hs
      rw [append_false] at hnone
      obtain ⟨chosen, hname, happ⟩ := husable.applicable
      refine hnone ⟨chosen, hname, (hdomain.applicable_append_iff hfluents).2 ?_⟩
      exact (hdomain.applicable_append_iff hfluents).1 happ
  have hall : Bit.all domain .errorBit = Bit.all domain .invariant ++ [.agentError] := by
    simp [Bit.all, Bit.errors]
  rw [hall, List.map_append, List.map_singleton, decide_eq_false hagent,
    List.map_congr_left fun bit hbit => decide_eq_decide.2 (hsame bit hbit)]

/-- Without the bit `agent_err` play goes on as with it, as long as the bit is not set. -/
theorem carries_errorBit (hdomain : domain.WellFormed) :
    Carries (fun s => s ++ [false]) domain .invariant .errorBit := by
  constructor
  · intro s hs
    simp [hs, stateNames]
  · rw [initialState_eq, initialState_eq, append_false]
  · intro s hs name
    obtain ⟨fluents, envError, hfluents, rfl⟩ := exists_append_of_invariant hs
    rw [append_false, usable_append_iff hdomain hfluents, usable_append_iff hdomain hfluents]
  · exact fun s hs name reaction husable => map_next_errorBit hdomain hs husable
  · intro s hs
    obtain ⟨fluents, envError, hfluents, rfl⟩ := exists_append_of_invariant hs
    rw [append_false, getElem?_envError hfluents, getElem?_envError hfluents]
  · intro s hs
    obtain ⟨fluents, envError, hfluents, rfl⟩ := exists_append_of_invariant hs
    rw [append_false, hdomain.isGoal_append_iff hfluents, hdomain.isGoal_append_iff hfluents]
  · intro t ht hnot name husable
    obtain rfl | ⟨s, agentError, rfl⟩ := t.eq_nil_or_concat'
    · simp [stateNames] at ht
    · have hs : s.length = (stateNames domain .invariant).length := by
        simpa [stateNames] using ht
      cases agentError with
      | false => exact hnot s hs rfl
      | true =>
        refine husable.blameless ?_
        have hlength : s.length = domain.fluents.length + 1 := by simpa [stateNames] using hs
        rw [List.getElem?_append_right hlength.le, hlength, Nat.sub_self]
        rfl

section Embeds

variable (h : Poses registry domain mode encoding attitude maxIterations Q c)
  (h' : Poses registry' domain mode' encoding' attitude maxIterations Q' c')

include h in
theorem Poses.stateVars_length :
    c.arena.stateVars.length = (stateNames domain mode).length := by
  rw [h.arena_eq, h.faithful.length_stateNames]

include h in
/-- What is usable, read in a state. -/
theorem Poses.holds_space_iff {s : List Bool} (hs : s.length = (stateNames domain mode).length)
    (X Y : Valuation) :
    c.arena.Holds c.store c.space s X Y ↔ Usable domain s (encoding.action Y) := by
  rw [h.arena_eq]
  exact h.faithful.holds_iff h.space (hs.trans h.faithful.length_stateNames.symm) X Y

include h in
theorem Poses.holds_goal_iff {s : List Bool} (hs : s.length = (stateNames domain mode).length)
    (X Y : Valuation) :
    c.arena.Holds c.store c.goal s X Y ↔ Usable domain s (encoding.action Y) ∧ Q s := by
  rw [h.arena_eq]
  exact h.faithful.holds_iff (P := fun s name => Usable domain s name ∧ Q s) h.goal
    (hs.trans h.faithful.length_stateNames.symm) X Y

include h in
open Classical in
theorem Poses.successor_eq {s : List Bool} (hs : s.length = (stateNames domain mode).length)
    (X Y : Valuation) :
    c.arena.successor c.store s X Y = (Bit.all domain mode).map fun bit =>
      decide (bit.Next domain s (encoding.action Y) (encoding.reaction X)) := by
  rw [h.arena_eq]
  exact h.faithful.successor_eq (hs.trans h.faithful.length_stateNames.symm)

include h h' in
/-- The same bits choose the same action. -/
theorem Poses.action_eq {X X' Y Y' : Valuation} (hbits : SameBits c.arena c'.arena X X' Y Y') :
    encoding.action Y = encoding'.action Y' := by
  unfold action CodeTable.chosen
  rw [h.faithful.agentNames_eq, h'.faithful.agentNames_eq, ← h.arena_eq, ← h'.arena_eq,
    hbits.outputs]

include h h' in
theorem Poses.reaction_eq {X X' Y Y' : Valuation} (hbits : SameBits c.arena c'.arena X X' Y Y') :
    encoding.reaction X = encoding'.reaction X' := by
  unfold reaction CodeTable.chosen
  rw [h.faithful.reactionNames_eq, h'.faithful.reactionNames_eq, ← h.arena_eq, ← h'.arena_eq,
    hbits.inputs]

include h h' in
/-- The games of one encoding are found again within those of the other. -/
theorem Carries.embeds (hcarries : Carries ι domain mode mode')
    (hQ : ∀ s : List Bool, s.length = (stateNames domain mode).length → (Q s ↔ Q' (ι s))) :
    Embeds ι c c' where
  attitude_eq := h'.attitude_eq.trans h.attitude_eq.symm
  maxIterations_eq := h'.maxIterations_eq.trans h.maxIterations_eq.symm
  inputs_length := by
    rw [h.arena_eq, h'.arena_eq, h.faithful.placed.inputs_fit.length_eq,
      h'.faithful.placed.inputs_fit.length_eq]
  outputs_length := by
    rw [h.arena_eq, h'.arena_eq, h.faithful.placed.outputs_fit.length_eq,
      h'.faithful.placed.outputs_fit.length_eq]
  length s hs := by
    rw [h'.stateVars_length]
    exact hcarries.length s (hs.trans h.stateVars_length)
  initial := by
    rw [h.arena_eq, h'.arena_eq, h.faithful.initial_eq, h'.faithful.initial_eq, hcarries.initial]
  space_iff s hs X X' Y Y' hbits := by
    rw [h.stateVars_length] at hs
    rw [h.holds_space_iff hs, h'.holds_space_iff (hcarries.length s hs), hcarries.usable_iff s hs,
      h.action_eq h' hbits]
  goal_iff s hs X X' Y Y' hbits := by
    rw [h.stateVars_length] at hs
    dsimp only
    rw [h.holds_space_iff hs, h'.holds_space_iff (hcarries.length s hs), h.holds_goal_iff hs,
      h'.holds_goal_iff (hcarries.length s hs), hcarries.usable_iff s hs, h.action_eq h' hbits,
      hQ s hs]
  successor_eq s hs X X' Y Y' hbits hspace := by
    rw [h.stateVars_length] at hs
    have husable := (h.holds_space_iff hs X Y).1 hspace
    rw [h.successor_eq hs, h'.successor_eq (hcarries.length s hs), ← h.action_eq h' hbits,
      ← h.reaction_eq h' hbits]
    exact hcarries.next_eq s hs _ _ husable
  outside t ht hnot X Y hspace := by
    rw [h'.stateVars_length] at ht
    exact hcarries.outside t ht (fun s hs => hnot s (hs.trans h.stateVars_length.symm))
      (encoding'.action Y) ((h'.holds_space_iff ht X Y).1 hspace)

end Embeds

end Poses

section Searches

/-- How the search of the game of an encoding for a property of states ends. -/
def Searches (registry : Registry) (domain : Domain) (mode : AgentErrorMode) (encoding : Encoding)
    (attitude : Attitude) (maxIterations : Option Nat) (Q : List Bool → Prop) (later : Store)
    (outcome : Except Failure Solution) : Prop :=
  ∃ c : Contest, Poses registry domain mode encoding attitude maxIterations Q c ∧
    c.Ends later outcome

variable {outcome outcome' : Except Failure Solution} {solution solution' : Solution}

/-- The searches of two encodings for the same property end in the same way. -/
theorem Carries.sameEnd (hcarries : Carries ι domain mode mode')
    (hQ : ∀ s : List Bool, s.length = (stateNames domain mode).length → (Q s ↔ Q' (ι s)))
    (hlater : later.Reduced) (hlater' : later'.Reduced)
    (h : Searches registry domain mode encoding attitude maxIterations Q later outcome)
    (h' : Searches registry' domain mode' encoding' attitude maxIterations Q' later' outcome') :
    SameEnd (Solution.Agrees ι encoding.automaton encoding'.automaton later later') outcome
      outcome' := by
  obtain ⟨c, hposes, hends⟩ := h
  obtain ⟨c', hposes', hends'⟩ := h'
  have hembeds := hcarries.embeds hposes hposes' hQ
  rw [← hposes.arena_eq, ← hposes'.arena_eq]
  exact hembeds.sameEnd hposes.posed hposes'.posed hlater hlater' hends hends'

theorem Searches.mono {last : Store}
    (h : Searches registry domain mode encoding attitude maxIterations Q later (.ok solution))
    (hr : later.Reduced) (hle : later ≤ last) :
    Searches registry domain mode encoding attitude maxIterations Q last (.ok solution) := by
  obtain ⟨c, hposes, hle', hanswer⟩ := h
  exact ⟨c, hposes, hle'.trans hle, hanswer.mono hr hle⟩

/-- The winning states of a solution are a property of states. -/
theorem Searches.denotes_winningStates
    (h : Searches registry domain mode encoding attitude maxIterations Q later (.ok solution)) :
    later.Denotes solution.winningStates fun a => encoding.automaton.satisfies later
      solution.winningStates (encoding.automaton.stateOf a) = true := by
  obtain ⟨c, hposes, -, hanswer⟩ := h
  rw [← hposes.arena_eq]
  exact hanswer.denotes_winningStates hposes.posed

/-- A search for a property of states, in a store that has its diagrams. -/
theorem Faithful.concludes_search (hm : Stands registry manager)
    (h : Faithful registry manager.store domain mode encoding) {space goal : Edge}
    (hspace : manager.store.Denotes space fun a =>
      Usable domain (encoding.automaton.stateOf a) (encoding.action a))
    (hgoal : manager.store.Denotes goal fun a =>
      Usable domain (encoding.automaton.stateOf a) (encoding.action a) ∧
        Q (encoding.automaton.stateOf a)) :
    Concludes (Stands registry)
      (liftM ((agentGame encoding.automaton maxIterations).solve attitude goal space) :
        ManagerM Solution) manager
      (fun solution later => Searches registry domain mode encoding attitude maxIterations Q
        later.store (.ok solution))
      fun failure later => HasRoom later.store → Searches registry domain mode encoding attitude
        maxIterations Q later.store (.error failure) := by
  let c : Contest := ⟨manager.store, encoding.automaton, attitude, goal, space, maxIterations⟩
  have hposes : Poses registry domain mode encoding attitude maxIterations Q c :=
    ⟨rfl, rfl, rfl, hm.sound, h, hspace, hgoal⟩
  refine (concludes_lift hm hposes.posed.concludes).weaken
    (fun solution later _ _ hle hanswer => ?_) fun failure later _ hdiverges hroom => ?_
  · exact ⟨c, hposes, hle.1, hanswer⟩
  · exact ⟨c, hposes, hdiverges hroom⟩

end Searches

section Procedures

/-- What the agent wants against every environment. -/
def Forced (domain : Domain) (s : List Bool) : Prop :=
  s[domain.fluents.length]? = some true ∨ domain.isGoal s = .ok true

/-- What the agent wants of an environment that keeps to its rules. -/
def Lawful (domain : Domain) (T : List Bool → Prop) (s : List Bool) : Prop :=
  ¬ s[domain.fluents.length]? = some true ∧ T s

theorem Carries.forced_iff (hcarries : Carries ι domain mode mode') {s : List Bool}
    (hs : s.length = (stateNames domain mode).length) :
    Forced domain s ↔ Forced domain (ι s) := by
  rw [Forced, Forced, hcarries.envError s hs, hcarries.isGoal s hs]

theorem Carries.lawful_iff (hcarries : Carries ι domain mode mode') {T T' : List Bool → Prop}
    {s : List Bool} (hs : s.length = (stateNames domain mode).length) (hT : T s ↔ T' (ι s)) :
    Lawful domain T s ↔ Lawful domain T' (ι s) := by
  rw [Lawful, Lawful, hcarries.envError s hs, hT]

/-- The states that a solution wins. -/
def Won (encoding : Encoding) (store : Store) (solution : Solution) (s : List Bool) : Prop :=
  encoding.automaton.satisfies store solution.winningStates s = true

section Strives

variable (registry : Registry) (domain : Domain) (mode : AgentErrorMode) (encoding : Encoding)
  (maxIterations : Option Nat) (later : Store)

/-- How the game against every environment ends. -/
def Tries (outcome : Except Failure Solution) : Prop :=
  Searches registry domain mode encoding .adversarial maxIterations (Forced domain) later outcome

/-- How the game for the winning states of a solution ends, in which the environment helps. -/
def Helps (adversarial : Solution) (outcome : Except Failure Solution) : Prop :=
  Searches registry domain mode encoding .cooperative maxIterations
    (Lawful domain (Won encoding later adversarial)) later outcome

/-- How best effort ends. -/
inductive Strives : Except Failure BestEffort → Prop
  | unsettled {failure : Failure}
      (h : Tries registry domain mode encoding maxIterations later (.error failure)) :
      Strives (.error failure)
  | won {adversarial : Solution}
      (h : Tries registry domain mode encoding maxIterations later (.ok adversarial))
      (hrealizable : adversarial.realizable = true) :
      Strives (.ok ⟨encoding.automaton, adversarial, none⟩)
  | helped {adversarial : Solution} {help : Except Failure Solution}
      (h : Tries registry domain mode encoding maxIterations later (.ok adversarial))
      (hunrealizable : adversarial.realizable = false)
      (hhelp : Helps registry domain mode encoding maxIterations later adversarial help) :
      Strives (help.map fun cooperative => ⟨encoding.automaton, adversarial, some cooperative⟩)

/-- How a procedure ends. -/
inductive Attempts : Algorithm → Except Failure Outcome → Prop
  | adversarial {found : Except Failure Solution}
      (h : Tries registry domain mode encoding maxIterations later found) :
      Attempts .adversarial (found.map .adversarial)
  | cooperative {found : Except Failure Solution}
      (h : Searches registry domain mode encoding .cooperative maxIterations
        (Lawful domain fun s => domain.isGoal s = .ok true) later found) :
      Attempts .cooperative (found.map .cooperative)
  | bestEffort {found : Except Failure BestEffort}
      (h : Strives registry domain mode encoding maxIterations later found) :
      Attempts .bestEffort (found.map .bestEffort)

end Strives

variable (hcarries : Carries ι domain mode mode') (hlater : later.Reduced)
  (hlater' : later'.Reduced)
include hcarries hlater hlater'

theorem Carries.tries_sameEnd {outcome outcome' : Except Failure Solution}
    (h : Tries registry domain mode encoding maxIterations later outcome)
    (h' : Tries registry' domain mode' encoding' maxIterations later' outcome') :
    SameEnd (Solution.Agrees ι encoding.automaton encoding'.automaton later later') outcome
      outcome' :=
  hcarries.sameEnd (fun _ hs => hcarries.forced_iff hs) hlater hlater' h h'

theorem Carries.helps_sameEnd {adversarial adversarial' : Solution}
    {outcome outcome' : Except Failure Solution}
    (hlength : encoding.automaton.stateVars.length = (stateNames domain mode).length)
    (hagrees : Solution.Agrees ι encoding.automaton encoding'.automaton later later' adversarial
      adversarial')
    (h : Helps registry domain mode encoding maxIterations later adversarial outcome)
    (h' : Helps registry' domain mode' encoding' maxIterations later' adversarial' outcome') :
    SameEnd (Solution.Agrees ι encoding.automaton encoding'.automaton later later') outcome
      outcome' := by
  refine hcarries.sameEnd (fun s hs => hcarries.lawful_iff hs ?_) hlater hlater' h h'
  rw [Won, Won, hagrees.winning.inside s (hs.trans hlength.symm)]

/-- Best effort ends in the same way for both encodings. -/
theorem Carries.strives_sameEnd {outcome outcome' : Except Failure BestEffort}
    (hlength : encoding.automaton.stateVars.length = (stateNames domain mode).length)
    (h : Strives registry domain mode encoding maxIterations later outcome)
    (h' : Strives registry' domain mode' encoding' maxIterations later' outcome') :
    SameEnd (BestEffort.Agrees ι encoding.automaton encoding'.automaton later later') outcome
      outcome' := by
  have htries : ∀ {found found' : Except Failure Solution},
      Tries registry domain mode encoding maxIterations later found →
      Tries registry' domain mode' encoding' maxIterations later' found' →
      SameEnd (Solution.Agrees ι encoding.automaton encoding'.automaton later later') found found' :=
    hcarries.tries_sameEnd hlater hlater'
  cases h with
  | unsettled h =>
    cases h' with
    | unsettled h' =>
      cases htries h h'
      exact .failed _
    | won h' => cases htries h h'
    | helped h' => cases htries h h'
  | won h hrealizable =>
    cases h' with
    | unsettled h' => cases htries h h'
    | won h' =>
      cases htries h h' with
      | answered hagrees => exact .answered (BestEffort.agrees_of_solutions hagrees .none)
    | helped h' hunrealizable =>
      cases htries h h' with
      | answered hagrees => simp [hagrees.realizable, hrealizable] at hunrealizable
  | helped h hunrealizable hhelp =>
    cases h' with
    | unsettled h' => cases htries h h'
    | won h' hrealizable =>
      cases htries h h' with
      | answered hagrees => simp [← hagrees.realizable, hrealizable] at hunrealizable
    | helped h' _ hhelp' =>
      cases htries h h' with
      | answered hagrees =>
        refine (hcarries.helps_sameEnd hlater hlater' hlength hagrees hhelp hhelp').map ?_
        exact fun _ _ hhelps => BestEffort.agrees_of_solutions hagrees (.some hhelps)

/-- Every procedure ends in the same way for both encodings. -/
theorem Carries.attempts_sameEnd {algorithm : Algorithm} {outcome outcome' : Except Failure Outcome}
    (hlength : encoding.automaton.stateVars.length = (stateNames domain mode).length)
    (h : Attempts registry domain mode encoding maxIterations later algorithm outcome)
    (h' : Attempts registry' domain mode' encoding' maxIterations later' algorithm outcome') :
    SameEnd (Outcome.Agrees ι encoding.automaton encoding'.automaton later later') outcome
      outcome' := by
  cases h with
  | adversarial h =>
    cases h' with
    | adversarial h' =>
      exact (hcarries.tries_sameEnd hlater hlater' h h').map fun _ _ => .adversarial
  | cooperative h =>
    cases h' with
    | cooperative h' =>
      have hgoal : ∀ s : List Bool, s.length = (stateNames domain mode).length →
          (Lawful domain (fun s => domain.isGoal s = .ok true) s ↔
            Lawful domain (fun s => domain.isGoal s = .ok true) (ι s)) := fun s hs =>
        hcarries.lawful_iff hs (hcarries.isGoal s hs).symm
      exact (hcarries.sameEnd hgoal hlater hlater' h h').map fun _ _ => .cooperative
  | bestEffort h =>
    cases h' with
    | bestEffort h' =>
      exact (hcarries.strives_sameEnd hlater hlater' hlength h h').map fun _ _ => .bestEffort

omit hcarries hlater' in
/-- More diagrams make no difference to the states that are won. -/
theorem Searches.won_eq {last : Store} {solution : Solution}
    (h : Searches registry domain mode encoding attitude maxIterations Q later (.ok solution))
    (hle : later ≤ last) : Won encoding last solution = Won encoding later solution := by
  funext s
  rw [Won, Won, Automaton.satisfies, Automaton.satisfies,
    hlater.eval_mono hle h.denotes_winningStates.has]

end Procedures

section Runs

variable (hm : Stands registry manager) (h : Faithful registry manager.store domain mode encoding)
  (hdomain : domain.WellFormed) (maxIterations : Option Nat)
include hm h hdomain

theorem Faithful.concludes_solveAdversarial :
    Concludes (Stands registry) (encoding.solveAdversarial maxIterations) manager
      (fun solution later =>
        Tries registry domain mode encoding maxIterations later.store (.ok solution))
      fun failure later => HasRoom later.store →
        Tries registry domain mode encoding maxIterations later.store (.error failure) := by
  unfold solveAdversarial
  dsimp only
  apply (delivers_lift hm (h.ensures_stateSpace hdomain hm.sound).delivers).concludes.bind
  intro space m₁ hm₁ hle₁ hspace
  have h₁ := h.mono hm.sound.toReduced hle₁.1 le_rfl
  apply (h₁.delivers_adversarialGoal hm₁ hdomain (fun _ => id) h₁.finals hspace).concludes.bind
  intro goal m₂ hm₂ hle₂ hgoal
  have h₂ := h₁.mono hm₁.sound.toReduced hle₂.1 le_rfl
  exact h₂.concludes_search hm₂ (hspace.mono hm₁.sound.toReduced hle₂.1) hgoal

/-- A search for help to a property of states. -/
theorem Faithful.concludes_help {T : List Bool → Prop} {target space : Edge}
    (htarget : manager.store.Denotes target fun a => T (encoding.automaton.stateOf a))
    (hspace : manager.store.Denotes space fun a =>
      Usable domain (encoding.automaton.stateOf a) (encoding.action a)) :
    Concludes (Stands registry) (do
        let goal ← encoding.cooperativeGoal target space
        (agentGame encoding.automaton maxIterations).solve .cooperative goal space) manager
      (fun solution later => Searches registry domain mode encoding .cooperative maxIterations
        (Lawful domain T) later.store (.ok solution))
      fun failure later => HasRoom later.store → Searches registry domain mode encoding .cooperative
        maxIterations (Lawful domain T) later.store (.error failure) := by
  apply (h.delivers_cooperativeGoal_of_denotes hm hdomain (fun _ => id) htarget
    hspace).concludes.bind
  intro goal m₁ hm₁ hle₁ hgoal
  have h₁ := h.mono hm.sound.toReduced hle₁.1 le_rfl
  exact h₁.concludes_search hm₁ (hspace.mono hm.sound.toReduced hle₁.1) hgoal

theorem Faithful.concludes_solveCooperative :
    Concludes (Stands registry) (encoding.solveCooperative maxIterations) manager
      (fun solution later => Searches registry domain mode encoding .cooperative maxIterations
        (Lawful domain fun s => domain.isGoal s = .ok true) later.store (.ok solution))
      fun failure later => HasRoom later.store → Searches registry domain mode encoding .cooperative
        maxIterations (Lawful domain fun s => domain.isGoal s = .ok true) later.store
          (.error failure) := by
  unfold solveCooperative
  dsimp only
  apply (delivers_lift hm (h.ensures_stateSpace hdomain hm.sound).delivers).concludes.bind
  intro space m₁ hm₁ hle₁ hspace
  have h₁ := h.mono hm.sound.toReduced hle₁.1 le_rfl
  exact h₁.concludes_help hm₁ hdomain maxIterations h₁.finals hspace

theorem Faithful.concludes_solveBestEffort :
    Concludes (Stands registry) (encoding.solveBestEffort maxIterations) manager
      (fun result later =>
        Strives registry domain mode encoding maxIterations later.store (.ok result))
      fun failure later => HasRoom later.store →
        Strives registry domain mode encoding maxIterations later.store (.error failure) := by
  unfold solveBestEffort
  dsimp only
  apply (delivers_lift hm (h.ensures_stateSpace hdomain hm.sound).delivers).concludes.bind
  intro space m₁ hm₁ hle₁ hspace
  have h₁ := h.mono hm.sound.toReduced hle₁.1 le_rfl
  refine ((h₁.concludes_solveAdversarial hm₁ hdomain maxIterations).weaken
    (fun _ _ _ _ _ htries => htries) fun _ _ _ hfails hroom => .unsettled (hfails hroom)).bind ?_
  intro adversarial m₂ hm₂ hle₂ htries
  have h₂ := h₁.mono hm₁.sound.toReduced hle₂.1 le_rfl
  have hspace := hspace.mono hm₁.sound.toReduced hle₂.1
  split
  · next hrealizable =>
    refine concludes_note_bind hm₂ _ _ fun m₃ hm₃ hle₃ => concludes_pure hm₃ ?_
    exact .won (htries.mono hm₂.sound.toReduced hle₃.1) hrealizable
  · next hunrealizable =>
    have hunrealizable : adversarial.realizable = false := by simpa using hunrealizable
    refine concludes_note_bind hm₂ _ _ fun m₃ hm₃ hle₃ => ?_
    have h₃ := h₂.mono hm₂.sound.toReduced hle₃.1 le_rfl
    have htries : Tries registry domain mode encoding maxIterations m₃.store (.ok adversarial) :=
      htries.mono hm₂.sound.toReduced hle₃.1
    -- the winning states are the same in all later stores
    have hhelps : ∀ (later : Store) (help : Except Failure Solution), m₃.store ≤ later →
        Searches registry domain mode encoding .cooperative maxIterations
          (Lawful domain (Won encoding m₃.store adversarial)) later help →
        Helps registry domain mode encoding maxIterations later adversarial help :=
      fun later help hle hsearch => by
        rw [Helps, Searches.won_eq hm₃.sound.toReduced htries hle]
        exact hsearch
    have hhelp := h₃.concludes_help (T := Won encoding m₃.store adversarial) hm₃ hdomain
      maxIterations htries.denotes_winningStates (hspace.mono hm₂.sound.toReduced hle₃.1)
    rw [← bind_assoc]
    refine (hhelp.weaken (fun _ _ _ _ _ hsearch => hsearch) fun failure later hle hfails hroom =>
      .helped (htries.mono hm₃.sound.toReduced hle.1) hunrealizable
        (hhelps later.store _ hle.1 (hfails hroom))).bind ?_
    intro cooperative m₄ hm₄ hle₄ hsearch
    refine concludes_note_bind hm₄ _ _ fun m₅ hm₅ hle₅ => concludes_pure hm₅ ?_
    have hle := (hle₄.trans hle₅).1
    exact .helped (htries.mono hm₃.sound.toReduced hle) hunrealizable
      (hhelps m₅.store _ hle (hsearch.mono hm₄.sound.toReduced hle₅.1))

theorem Faithful.concludes_solve (algorithm : Algorithm) :
    Concludes (Stands registry) (encoding.solve algorithm maxIterations) manager
      (fun outcome later =>
        Attempts registry domain mode encoding maxIterations later.store algorithm (.ok outcome))
      fun failure later => HasRoom later.store →
        Attempts registry domain mode encoding maxIterations later.store algorithm
          (.error failure) := by
  unfold solve
  refine concludes_note_bind hm _ _ fun m₁ hm₁ hle₁ => ?_
  have h₁ := h.mono hm.sound.toReduced hle₁.1 le_rfl
  cases algorithm with
  | adversarial =>
    exact ((h₁.concludes_solveAdversarial hm₁ hdomain maxIterations).weaken
      (fun _ _ _ _ _ htries => htries) fun _ _ _ hfails hroom => .adversarial (hfails hroom)).bind
        fun _ _ hlater _ htries => concludes_pure hlater (.adversarial htries)
  | cooperative =>
    exact ((h₁.concludes_solveCooperative hm₁ hdomain maxIterations).weaken
      (fun _ _ _ _ _ hsearch => hsearch) fun _ _ _ hfails hroom => .cooperative (hfails hroom)).bind
        fun _ _ hlater _ hsearch => concludes_pure hlater (.cooperative hsearch)
  | bestEffort =>
    exact ((h₁.concludes_solveBestEffort hm₁ hdomain maxIterations).weaken
      (fun _ _ _ _ _ hstrives => hstrives) fun _ _ _ hfails hroom =>
        .bestEffort (hfails hroom)).bind
          fun _ _ hlater _ hstrives => concludes_pure hlater (.bestEffort hstrives)

end Runs

/-- Two encodings of a domain are solved in the same way, while there is room in both stores. -/
theorem Carries.solve_sameEnd (hcarries : Carries ι domain mode mode')
    (hdomain : domain.WellFormed) (hm : Stands registry manager)
    (hm' : Stands registry' manager')
    (h : Faithful registry manager.store domain mode encoding)
    (h' : Faithful registry' manager'.store domain mode' encoding') (algorithm : Algorithm)
    (maxIterations : Option Nat) {outcome outcome' : Except Failure Outcome}
    {later later' : Manager}
    (hrun : (encoding.solve algorithm maxIterations).run.run manager = (outcome, later))
    (hrun' : (encoding'.solve algorithm maxIterations).run.run manager' = (outcome', later'))
    (hroom : HasRoom later.store) (hroom' : HasRoom later'.store) :
    SameEnd (Outcome.Agrees ι encoding.automaton encoding'.automaton later.store later'.store)
      outcome outcome' := by
  have hsolve := h.concludes_solve hm hdomain maxIterations algorithm
  have hsolve' := h'.concludes_solve hm' hdomain maxIterations algorithm
  have hattempts := hsolve.holds hrun (fun _ hpost => hpost) fun _ hfails => hfails hroom
  have hattempts' := hsolve'.holds hrun' (fun _ hpost => hpost) fun _ hfails => hfails hroom'
  have hlater := hsolve.sound
  have hlater' := hsolve'.sound
  rw [hrun] at hlater
  rw [hrun'] at hlater'
  exact hcarries.attempts_sameEnd hlater.sound.toReduced hlater'.sound.toReduced
    h.length_stateNames hattempts hattempts'

end Encoding

end PlanningGame
