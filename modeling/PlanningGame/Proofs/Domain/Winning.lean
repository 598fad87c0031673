import Mathlib
import PlanningGame.Domain.Basic
import PlanningGame.Proofs.Names

/-!
# The game of a domain

What a domain means without diagrams. The agent chooses an applicable action, the environment one
of the reactions that the action has, and the effects of all pairs with both parts are applied. A
state is won if it satisfies the invariants and has an applicable action with which the goal is
reached at once or after every reaction.
-/
namespace PlanningGame

/-- The conditions of the pair hold. -/
structure Action.Permits (action : Action) (s : List Bool) : Prop where
  required : ∀ i ∈ action.required, s[i]? = some true
  forbidden : ∀ i ∈ action.forbidden, s[i]? = some false

/-- A positive fluent that holds excludes the other positive ones and needs the negative ones. A
negative fluent that holds excludes the positive ones and needs the other negative ones. -/
structure Invariant.Holds (invariant : Invariant) (s : List Bool) : Prop where
  positive : ∀ i ∈ invariant.positive, s[i]? = some true →
    (∀ j ∈ invariant.positive, j ≠ i → s[j]? = some false) ∧
      ∀ j ∈ invariant.negative, s[j]? = some true
  negative : ∀ i ∈ invariant.negative, s[i]? = some true →
    (∀ j ∈ invariant.positive, s[j]? = some false) ∧
      ∀ j ∈ invariant.negative, j ≠ i → s[j]? = some true

theorem Invariant.Holds.congr {invariant : Invariant} {s t : List Bool} (h : invariant.Holds s)
    (hpositive : ∀ i ∈ invariant.positive, t[i]? = s[i]?)
    (hnegative : ∀ i ∈ invariant.negative, t[i]? = s[i]?) : invariant.Holds t := by
  constructor
  · intro i hi hholds
    obtain ⟨hp, hn⟩ := h.positive i hi (hpositive i hi ▸ hholds)
    exact ⟨fun j hj hne => (hpositive j hj).trans (hp j hj hne),
      fun j hj => (hnegative j hj).trans (hn j hj)⟩
  · intro i hi hholds
    obtain ⟨hp, hn⟩ := h.negative i hi (hnegative i hi ▸ hholds)
    exact ⟨fun j hj => (hpositive j hj).trans (hp j hj),
      fun j hj hne => (hnegative j hj).trans (hn j hj hne)⟩

namespace Domain

variable {domain : Domain} {name reaction : String} {s rest : List Bool}

/-- The state satisfies all invariants. -/
def Admits (domain : Domain) (s : List Bool) : Prop :=
  ∀ invariant ∈ domain.invariants, invariant.Holds s

/-- The conditions of an agent action are those of its first pair. -/
def Applicable (domain : Domain) (name : String) (s : List Bool) : Prop :=
  ∃ action, domain.actionList.find? (·.agent = name) = some action ∧ action.Permits s

/-- The pairs with the given parts. -/
def pairsOf (domain : Domain) (name reaction : String) : List Action :=
  domain.actionList.filter fun action => action.agent = name ∧ action.reaction = reaction

/-- The reaction answers the action. -/
def Grounded (domain : Domain) (name reaction : String) : Prop :=
  ∃ action ∈ domain.actionList, action.agent = name ∧ action.reaction = reaction

/-- The state after an action and a reaction: all fluents that their pairs delete are deleted, then
all that their pairs add are added. -/
def result (domain : Domain) (name reaction : String) (s : List Bool) : List Bool :=
  s.mapIdx fun i value =>
    (domain.pairsOf name reaction).any (·.adds.contains i) ||
      (value && !(domain.pairsOf name reaction).any (·.deletes.contains i))

/-- The least set of states that satisfy the invariants and have an applicable action with which
the goal is reached at once, or with which every reaction leads into the set. -/
inductive Wins (domain : Domain) : List Bool → Prop
  | goal {s : List Bool} {name : String} (hinv : domain.Admits s)
      (happ : domain.Applicable name s) (hgoal : domain.isGoal s = .ok true) : Wins domain s
  | step {s : List Bool} {name : String} (hinv : domain.Admits s)
      (happ : domain.Applicable name s)
      (hnext : ∀ reaction, domain.Grounded name reaction →
        Wins domain (domain.result name reaction s)) : Wins domain s

/-- The states that are won in a number of steps. -/
inductive WinsWithin (domain : Domain) : Nat → List Bool → Prop
  | goal {k : Nat} {s : List Bool} {name : String} (hinv : domain.Admits s)
      (happ : domain.Applicable name s) (hgoal : domain.isGoal s = .ok true) :
      WinsWithin domain k s
  | step {k : Nat} {s : List Bool} {name : String} (hinv : domain.Admits s)
      (happ : domain.Applicable name s)
      (hnext : ∀ reaction, domain.Grounded name reaction →
        WinsWithin domain k (domain.result name reaction s)) : WinsWithin domain (k + 1) s

theorem WinsWithin.mono {j k : Nat} (h : domain.WinsWithin j s) (hle : j ≤ k) :
    domain.WinsWithin k s := by
  induction h generalizing k with
  | goal hinv happ hgoal => exact .goal hinv happ hgoal
  | step hinv happ _ ih =>
    obtain ⟨k, rfl⟩ := Nat.exists_eq_add_one_of_ne_zero (Nat.ne_zero_of_lt hle)
    exact .step hinv happ fun reaction hgrounded => ih reaction hgrounded (by omega)

/-- An action has finitely many reactions, so that one number of steps is enough for all. -/
theorem Wins.exists_within (h : domain.Wins s) : ∃ k, domain.WinsWithin k s := by
  induction h with
  | goal hinv happ hgoal => exact ⟨0, .goal hinv happ hgoal⟩
  | @step s name hinv happ _ ih =>
    let answers : Set Action := {action | action ∈ domain.actionList ∧ action.agent = name}
    have hfinite : Finite answers :=
      (List.finite_toSet domain.actionList).subset fun _ haction => haction.1
    have hsteps : ∀ action : answers,
        ∃ k, domain.WinsWithin k (domain.result name action.1.reaction s) :=
      fun ⟨action, hmem, hagent⟩ => ih action.reaction ⟨action, hmem, hagent, rfl⟩
    choose steps hsteps using hsteps
    obtain ⟨k, hk⟩ := Finite.exists_le steps
    refine ⟨k + 1, .step hinv happ ?_⟩
    rintro reaction ⟨action, hmem, hagent, rfl⟩
    exact (hsteps ⟨action, hmem, hagent⟩).mono (hk _)

theorem WinsWithin.wins {k : Nat} (h : domain.WinsWithin k s) : domain.Wins s := by
  induction h with
  | goal hinv happ hgoal => exact .goal hinv happ hgoal
  | step hinv happ _ ih => exact .step hinv happ ih

theorem WinsWithin.exists_applicable {k : Nat} (h : domain.WinsWithin k s) :
    ∃ name, domain.Applicable name s := by
  cases h with
  | goal _ happ _ => exact ⟨_, happ⟩
  | step _ happ _ => exact ⟨_, happ⟩

theorem Wins.admits (h : domain.Wins s) : domain.Admits s := by
  cases h with
  | goal hinv _ _ => exact hinv
  | step hinv _ _ => exact hinv

theorem Wins.exists_applicable (h : domain.Wins s) : ∃ name, domain.Applicable name s := by
  obtain ⟨k, hk⟩ := h.exists_within
  exact hk.exists_applicable

/-- The states from which play can come to a state that is won within a number of steps, if the
environment gives the right ones of the reactions that the actions have. -/
inductive HelpedWithin (domain : Domain) : Nat → List Bool → Prop
  | won {k : Nat} {s : List Bool} (h : domain.Wins s) : HelpedWithin domain k s
  | step {k : Nat} {s : List Bool} {name reaction : String} (hinv : domain.Admits s)
      (happ : domain.Applicable name s) (hgrounded : domain.Grounded name reaction)
      (hnext : HelpedWithin domain k (domain.result name reaction s)) : HelpedWithin domain (k + 1) s

theorem HelpedWithin.mono {j k : Nat} (h : domain.HelpedWithin j s) (hle : j ≤ k) :
    domain.HelpedWithin k s := by
  induction h generalizing k with
  | won h => exact .won h
  | step hinv happ hgrounded _ ih =>
    obtain ⟨k, rfl⟩ := Nat.exists_eq_add_one_of_ne_zero (Nat.ne_zero_of_lt hle)
    exact .step hinv happ hgrounded (ih (by omega))

theorem HelpedWithin.admits {k : Nat} (h : domain.HelpedWithin k s) : domain.Admits s := by
  cases h with
  | won h => exact h.admits
  | step hinv _ _ _ => exact hinv

@[simp] theorem helpedWithin_zero : domain.HelpedWithin 0 s ↔ domain.Wins s := by
  constructor
  · intro h
    cases h with
    | won h => exact h
  · exact .won

/-- Play can come from here to a state that is won in no more steps than from the initial state. -/
def NoFarther (domain : Domain) (s : List Bool) : Prop :=
  ∃ k, domain.HelpedWithin k s ∧ ∀ m, domain.HelpedWithin m domain.initial → k ≤ m

theorem Wins.noFarther (h : domain.Wins s) : domain.NoFarther s :=
  ⟨0, .won h, fun _ _ => Nat.zero_le _⟩

@[simp] theorem result_length (domain : Domain) (name reaction : String) (s : List Bool) :
    (domain.result name reaction s).length = s.length :=
  List.length_mapIdx

theorem mem_pairsOf_iff {action : Action} :
    action ∈ domain.pairsOf name reaction ↔
      action ∈ domain.actionList ∧ action.agent = name ∧ action.reaction = reaction := by
  rw [pairsOf, List.mem_filter, decide_eq_true_eq]

theorem getElem?_result (i : Nat) :
    (domain.result name reaction s)[i]? = s[i]?.map fun value =>
      (domain.pairsOf name reaction).any (·.adds.contains i) ||
        (value && !(domain.pairsOf name reaction).any (·.deletes.contains i)) :=
  List.getElem?_mapIdx

theorem allHave_eq_true_iff {value : Bool} {places : List Nat} :
    allHave s value places = .ok true ↔ ∀ i ∈ places, s[i]? = some value := by
  induction places with
  | nil => simp [allHave]
  | cons i places ih =>
    rw [allHave, List.forall_mem_cons, ← ih]
    cases hi : s[i]? with
    | none => simp
    | some actual =>
      by_cases hvalue : actual = value
      · simp [hvalue]
      · simp [hvalue]

theorem isGoal_eq_true_iff :
    domain.isGoal s = .ok true ↔
      (∀ i ∈ domain.goal, s[i]? = some true) ∧
        ∀ i ∈ domain.goalForbidden, s[i]? = some false := by
  have hgoal : allHave s true domain.goal.toList = .ok true ↔
      ∀ i ∈ domain.goal, s[i]? = some true := by
    simp only [allHave_eq_true_iff, Std.TreeSet.mem_toList]
  have hforbidden : allHave s false domain.goalForbidden.toList = .ok true ↔
      ∀ i ∈ domain.goalForbidden, s[i]? = some false := by
    simp only [allHave_eq_true_iff, Std.TreeSet.mem_toList]
  rw [← hgoal, ← hforbidden]
  unfold isGoal
  rcases allHave s true domain.goal.toList with failure | all
  · constructor
    · exact fun h => nomatch h
    · exact fun h => nomatch h.1
  · cases all
    · constructor
      · exact fun h => nomatch h
      · exact fun h => nomatch h.1
    · exact ⟨fun h => ⟨rfl, h⟩, fun h => h.2⟩

/-- A checked domain speaks of its own fluents only. -/
structure WellFormed (domain : Domain) : Prop where
  initial_length : domain.initial.length = domain.fluents.length
  goal_lt : ∀ i ∈ domain.goal, i < domain.fluents.length
  goalForbidden_lt : ∀ i ∈ domain.goalForbidden, i < domain.fluents.length
  positive_lt : ∀ invariant ∈ domain.invariants, ∀ i ∈ invariant.positive,
    i < domain.fluents.length
  negative_lt : ∀ invariant ∈ domain.invariants, ∀ i ∈ invariant.negative,
    i < domain.fluents.length
  required_lt : ∀ action ∈ domain.actionList, ∀ i ∈ action.required, i < domain.fluents.length
  forbidden_lt : ∀ action ∈ domain.actionList, ∀ i ∈ action.forbidden, i < domain.fluents.length

theorem values_eq_map_toList (byName : Std.TreeMap String Action) :
    byName.values = byName.toList.map Prod.snd := by
  change byName.inner.inner.values =
    (Std.DTreeMap.Internal.Impl.Const.toList byName.inner.inner).map Prod.snd
  rw [Std.DTreeMap.Internal.Impl.values_eq_map_snd,
    Std.DTreeMap.Internal.Impl.Const.toList_eq_toListModel_map, List.map_map]
  rfl

theorem mem_values_iff {byName : Std.TreeMap String Action} {action : Action} :
    action ∈ byName.values ↔ ∃ name : String, byName[name]? = some action := by
  rw [values_eq_map_toList, List.mem_map]
  constructor
  · rintro ⟨⟨name, found⟩, hmem, rfl⟩
    exact ⟨name, Std.TreeMap.mem_toList_iff_getElem?_eq_some.1 hmem⟩
  · rintro ⟨name, hname⟩
    exact ⟨(name, action), Std.TreeMap.mem_toList_iff_getElem?_eq_some.2 hname, rfl⟩

/-- Of several pairs with one name the first is kept. -/
theorem getElem?_actionsByName (actions : List Action) (name : String) :
    (actionsByName actions)[name]? = actions.find? (·.name = name) := by
  suffices key : ∀ byName : Std.TreeMap String Action,
      (actions.foldl (fun byName action => byName.insertIfNew action.name action) byName)[name]? =
        byName[name]?.or (actions.find? (·.name = name)) by
    have hempty := key ∅
    rwa [Std.TreeMap.getElem?_emptyc, Option.none_or] at hempty
  induction actions with
  | nil => exact fun byName => Option.or_none.symm
  | cons first rest ih =>
    intro byName
    rw [List.foldl_cons, ih, Std.TreeMap.getElem?_insertIfNew]
    simp only [Std.compare_eq_iff_eq, Std.TreeMap.mem_iff_isSome_getElem?]
    by_cases hname : first.name = name
    · subst hname
      cases byName[first.name]? <;> simp
    · simp [hname]

theorem mem_of_mem_actionsByName {actions : List Action} {action : Action}
    (h : action ∈ (actionsByName actions).values) : action ∈ actions := by
  obtain ⟨name, hname⟩ := mem_values_iff.1 h
  rw [getElem?_actionsByName] at hname
  exact List.mem_of_find?_eq_some hname

/-- What is checked of the parts of a domain. -/
structure Checked (parts : DomainParts) : Prop where
  length_eq : parts.initial.length = parts.fluents.length
  fluents_nodup : parts.fluents.Nodup
  mentions_lt : ∀ mention ∈ parts.mentions, mention.2 < parts.fluents.length
  actions_ne_nil : parts.actions ≠ []

theorem ofParts_eq_ok_iff : ofParts parts = .ok domain ↔ Checked parts ∧
    domain =
      { fluents := parts.fluents
        initial := parts.initial
        actions := actionsByName parts.actions
        goal := parts.goal
        goalForbidden := parts.goalForbidden
        invariants := parts.invariants } := by
  constructor
  · intro h
    unfold ofParts at h
    dsimp only at h
    split at h
    · exact absurd h (by simp)
    next hlength =>
    split at h
    · exact absurd h (by simp)
    next hrepeat =>
    split at h
    · exact absurd h (by simp)
    next hrange =>
    split at h
    · exact absurd h (by simp)
    next hactions =>
    refine ⟨⟨not_not.1 hlength, nodup_of_firstRepeat_eq_none hrepeat, fun mention hmem => ?_, ?_⟩,
      (Except.ok.inj h).symm⟩
    · simpa using List.find?_eq_none.1 hrange mention hmem
    · simpa using hactions
  · rintro ⟨h, rfl⟩
    have hrange : ∀ mention ∈ parts.mentions, ¬ parts.fluents.length ≤ mention.2 :=
      fun mention hmem => (h.mentions_lt mention hmem).not_ge
    unfold ofParts
    dsimp only
    rw [if_neg (not_not.2 h.length_eq), firstRepeat_eq_none_iff.2 h.fluents_nodup]
    dsimp only
    rw [List.find?_eq_none.2]
    · simp [h.actions_ne_nil]
    · simpa using hrange

theorem fluents_nodup_of_ofParts (h : ofParts parts = .ok domain) : domain.fluents.Nodup := by
  obtain ⟨hchecked, rfl⟩ := ofParts_eq_ok_iff.1 h
  exact hchecked.fluents_nodup

/-- The checks of a domain leave no reference to a missing fluent. -/
theorem wellFormed_of_ofParts {parts : DomainParts} (h : ofParts parts = .ok domain) :
    domain.WellFormed := by
  obtain ⟨hchecked, rfl⟩ := ofParts_eq_ok_iff.1 h
  have hlt : ∀ mention index, (mention, index) ∈ parts.mentions → index < parts.fluents.length :=
    fun mention index => hchecked.mentions_lt (mention, index)
  have hpairs : ∀ action ∈ actionsByName parts.actions |>.values, ∀ mention index,
      (mention, index) ∈ action.mentions → index < parts.fluents.length := by
    intro action haction mention index hmem
    refine hlt mention index (List.mem_append_right _ ?_)
    exact List.mem_flatMap.2 ⟨action, mem_of_mem_actionsByName haction, hmem⟩
  constructor
  · exact hchecked.length_eq
  · intro i hi
    refine hlt .goal i ?_
    simp [DomainParts.mentions, hi]
  · intro i hi
    refine hlt .goal i ?_
    simp [DomainParts.mentions, hi]
  · intro invariant hinvariant i hi
    refine hlt .invariant i ?_
    simp only [DomainParts.mentions, List.mem_append, List.mem_flatMap]
    exact .inl (.inr ⟨invariant, hinvariant, by simp [hi]⟩)
  · intro invariant hinvariant i hi
    refine hlt .invariant i ?_
    simp only [DomainParts.mentions, List.mem_append, List.mem_flatMap]
    exact .inl (.inr ⟨invariant, hinvariant, by simp [hi]⟩)
  · intro action haction i hi
    refine hpairs action haction (.precondition action.name) i ?_
    simp [Action.mentions, hi]
  · intro action haction i hi
    refine hpairs action haction (.precondition action.name) i ?_
    simp [Action.mentions, hi]

section Locality

/-! What comes after the fluents of a state does not matter. -/

theorem forall_getElem?_append_iff {members : FluentSet} {value : Bool}
    (h : ∀ i ∈ members, i < s.length) :
    (∀ i ∈ members, (s ++ rest)[i]? = some value) ↔ ∀ i ∈ members, s[i]? = some value :=
  forall₂_congr fun i hi => by rw [List.getElem?_append_left (h i hi)]

theorem permits_append_iff {action : Action} (hrequired : ∀ i ∈ action.required, i < s.length)
    (hforbidden : ∀ i ∈ action.forbidden, i < s.length) :
    action.Permits (s ++ rest) ↔ action.Permits s := by
  constructor
  · rintro ⟨hholds, hfails⟩
    exact ⟨(forall_getElem?_append_iff hrequired).1 hholds,
      (forall_getElem?_append_iff hforbidden).1 hfails⟩
  · rintro ⟨hholds, hfails⟩
    exact ⟨(forall_getElem?_append_iff hrequired).2 hholds,
      (forall_getElem?_append_iff hforbidden).2 hfails⟩

variable (hdomain : domain.WellFormed) (hs : s.length = domain.fluents.length)
include hdomain hs

theorem WellFormed.applicable_append_iff :
    domain.Applicable name (s ++ rest) ↔ domain.Applicable name s := by
  refine exists_congr fun action => and_congr_right fun hfind => ?_
  have hmem := List.mem_of_find?_eq_some hfind
  apply permits_append_iff
  · exact fun i hi => hs ▸ hdomain.required_lt action hmem i hi
  · exact fun i hi => hs ▸ hdomain.forbidden_lt action hmem i hi

theorem WellFormed.isGoal_append_iff :
    domain.isGoal (s ++ rest) = .ok true ↔ domain.isGoal s = .ok true := by
  rw [isGoal_eq_true_iff, isGoal_eq_true_iff,
    forall_getElem?_append_iff fun i hi => hs ▸ hdomain.goal_lt i hi,
    forall_getElem?_append_iff fun i hi => hs ▸ hdomain.goalForbidden_lt i hi]

theorem WellFormed.admits_append_iff : domain.Admits (s ++ rest) ↔ domain.Admits s := by
  refine forall₂_congr fun invariant hmem => ?_
  have hpositive : ∀ i ∈ invariant.positive, (s ++ rest)[i]? = s[i]? := fun i hi =>
    List.getElem?_append_left (hs ▸ hdomain.positive_lt invariant hmem i hi)
  have hnegative : ∀ i ∈ invariant.negative, (s ++ rest)[i]? = s[i]? := fun i hi =>
    List.getElem?_append_left (hs ▸ hdomain.negative_lt invariant hmem i hi)
  constructor
  · exact fun h => h.congr (fun i hi => (hpositive i hi).symm) fun i hi => (hnegative i hi).symm
  · exact fun h => h.congr hpositive hnegative

end Locality

end Domain

end PlanningGame
