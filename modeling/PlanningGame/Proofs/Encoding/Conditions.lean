import Mathlib
import PlanningGame.Proofs.Domain.Winning
import PlanningGame.Proofs.Encoding.Codes

/-!
# Conditions as diagrams

Each part of an encoding is the diagram of a condition on the state, the selected action and the
selected reaction. The state is the list of values of the state variables; what is selected is
known through two functions, so that the codes need not be looked at again.
-/
namespace PlanningGame.Encoding

open Manager Store.Soundness

variable {registry : Registry} {manager : Manager} {id : BlockId} {vars : List Var}
  {sound : Store → Prop}

section States

theorem yields_stateLiteral (hm : StandsIn sound registry manager) (hid : Owns registry id vars)
    (value : Bool) (place : Nat) :
    YieldsIn sound registry (stateLiteral id value place) manager fun l _ =>
      place < vars.length ∧ l = signedLiteral (vars.getD place 0) value := by
  obtain ⟨labels, hblock⟩ := hid.block
  unfold stateLiteral
  refine yields_block_bind hm hblock ?_
  dsimp only
  cases hv : vars[place]? with
  | none => exact yields_throw _
  | some v =>
    refine yields_pure hm ⟨(List.getElem?_eq_some_iff.1 hv).1, ?_⟩
    rw [List.getD_eq_getElem?_getD, hv, Option.getD_some]

theorem yields_stateLiterals (hm : StandsIn sound registry manager) (hid : Owns registry id vars)
    (value : Bool) (places : List Nat) :
    YieldsIn sound registry (places.mapM (stateLiteral id value)) manager fun literals _ =>
      (∀ i ∈ places, i < vars.length) ∧
        literals = places.map fun i => signedLiteral (vars.getD i 0) value := by
  have hliteral : ∀ i ∈ places, ∀ now, StandsIn sound registry now → manager ≤ now →
      YieldsIn sound registry (stateLiteral id value i) now fun l _ =>
        i < vars.length ∧ l = signedLiteral (vars.getD i 0) value :=
    fun i _ now hnow _ => yields_stateLiteral hnow hid value i
  refine (yields_mapM hm (fun _ _ _ _ _ _ h => h) hliteral).weaken fun literals later _ _ h => ?_
  induction h with
  | nil => simp
  | cons hl _ ih =>
    obtain ⟨hlt, rfl⟩ := ih fun i hi => hliteral i (List.mem_cons_of_mem _ hi)
    exact ⟨List.forall_mem_cons.2 ⟨hl.1, hlt⟩, by rw [hl.2, List.map_cons]⟩

/-- The values of the state variables at some places. -/
def valuesAt (vars : List Var) (places : List Nat) (value : Bool) : List (Var × Bool) :=
  places.map fun i => (vars.getD i 0, value)

theorem map_fst_valuesAt (vars : List Var) (holding failing : List Nat) :
    (valuesAt vars holding true ++ valuesAt vars failing false).map Prod.fst =
      (holding ++ failing).map fun i => vars.getD i 0 := by
  simp [valuesAt, Function.comp_def]

theorem valuesAt_ne_zero (hid : Owns registry id vars) {holding failing : List Nat}
    (hlt : ∀ i ∈ holding ++ failing, i < vars.length) :
    ∀ p ∈ valuesAt vars holding true ++ valuesAt vars failing false, p.1 ≠ 0 := by
  intro p hp
  have hmem : p.1 ∈ (holding ++ failing).map fun i => vars.getD i 0 :=
    map_fst_valuesAt vars holding failing ▸ List.mem_map_of_mem hp
  obtain ⟨i, hi, hvar⟩ := List.mem_map.1 hmem
  rw [List.getD_eq_getElem _ _ (hlt i hi)] at hvar
  exact hid.ne_zero p.1 (hvar ▸ List.getElem_mem _)

/-- Different fluents have different variables. -/
theorem valuesAt_nodup (hid : Owns registry id vars) {holding failing : FluentSet}
    (hdisjoint : ∀ i ∈ holding, i ∉ failing)
    (hlt : ∀ i ∈ holding.toList ++ failing.toList, i < vars.length) :
    ((valuesAt vars holding.toList true ++ valuesAt vars failing.toList false).map
      Prod.fst).Nodup := by
  have hdistinct : ∀ members : FluentSet, members.toList.Nodup := fun members =>
    members.distinct_toList.imp fun hne heq => hne (Std.LawfulEqOrd.compare_eq_iff_eq.2 heq)
  rw [map_fst_valuesAt]
  apply List.Nodup.map_on
  · intro i hi j hj hij
    rw [List.getD_eq_getElem _ _ (hlt i hi), List.getD_eq_getElem _ _ (hlt j hj)] at hij
    exact hid.nodup.getElem_inj_iff.1 hij
  · apply (hdistinct holding).append (hdistinct failing)
    intro i hi hj
    exact hdisjoint i (Std.TreeSet.mem_toList.1 hi) (Std.TreeSet.mem_toList.1 hj)

theorem forall_valuesAt_iff {places : List Nat} (hlt : ∀ i ∈ places, i < vars.length) (value : Bool)
    (a : Valuation) :
    (∀ p ∈ valuesAt vars places value, a p.1 = p.2) ↔
      ∀ i ∈ places, (vars.map a)[i]? = some value := by
  rw [valuesAt, List.forall_mem_map]
  refine forall₂_congr fun i hi => ?_
  rw [getElem?_map_eq_some_iff (List.getElem?_eq_getElem (hlt i hi)),
    List.getD_eq_getElem _ _ (hlt i hi)]

variable [Store.Soundness sound]

/-- A cube of fluents says what it is made of, also if it asks for a fluent both ways, and is not
the constant false. -/
theorem yields_fluentCube (hm : StandsIn sound registry manager) (hid : Owns registry id vars)
    {holding failing : FluentSet} (hdisjoint : strict sound → ∀ i ∈ holding, i ∉ failing) :
    YieldsIn sound registry (fluentCube id holding failing) manager fun e later =>
      later.store.Denotes e (fun a =>
        (∀ i ∈ holding, (vars.map a)[i]? = some true) ∧
          ∀ i ∈ failing, (vars.map a)[i]? = some false) ∧ e ≠ .zero := by
  unfold fluentCube
  refine (yields_stateLiterals hm hid true _).bind fun positive now hnow _ ⟨hpos, hpositive⟩ => ?_
  refine (yields_stateLiterals hnow hid false _).bind
    fun negative later hlater _ ⟨hneg, hnegative⟩ => ?_
  have hliterals : positive ++ negative =
      (valuesAt vars holding.toList true ++ valuesAt vars failing.toList false).map
        fun p => signedLiteral p.1 p.2 := by
    simp [valuesAt, hpositive, hnegative, Function.comp_def]
  have hlt := List.forall_mem_append.2 ⟨hpos, hneg⟩
  rw [hliterals]
  refine (yields_lift hlater (Diagram.ensures_cube_assigns hlater.sound (valuesAt_ne_zero hid hlt)
    fun h => valuesAt_nodup hid (hdisjoint h) hlt).yields).weaken
      fun e last _ _ ⟨he, hne⟩ => ⟨he.congr fun a => ?_, hne⟩
  rw [List.forall_mem_append, forall_valuesAt_iff hpos, forall_valuesAt_iff hneg]
  simp only [Std.TreeSet.mem_toList]

end States

section Pairs

variable {store : Store} {choice answer : Valuation → Option String} {actions : List Action}
  {pairs : List (Action × PairPredicates)} {agents reactions : CodeTable}

/-- The parts of the pair are the name that the agent chose and the one that the environment
answered. -/
def Selected (name reaction : Option String) (action : Action) : Prop :=
  name = some action.agent ∧ reaction = some action.reaction

/-- The predicates of a pair say when its parts are selected. -/
structure Shows (store : Store) (choice answer : Valuation → Option String)
    (pair : Action × PairPredicates) : Prop where
  agent : store.Denotes pair.2.agent fun a => choice a = some pair.1.agent
  reaction : store.Denotes pair.2.reaction fun a => answer a = some pair.1.reaction
  both : store.Denotes pair.2.both fun a => Selected (choice a) (answer a) pair.1

/-- All pairs with their predicates. -/
structure Listed (store : Store) (choice answer : Valuation → Option String)
    (actions : List Action) (pairs : List (Action × PairPredicates)) : Prop where
  actions_eq : pairs.map Prod.fst = actions
  shows_mem : ∀ pair ∈ pairs, Shows store choice answer pair

/-- The cubes of the names in a table say which name is chosen. -/
def Tabled (store : Store) (choice : Valuation → Option String) (table : CodeTable)
    (names : List String) : Prop :=
  ∀ name ∈ names, store.Denotes (table.cube name) fun a => choice a = some name

theorem Tabled.mono {later : Store} {names : List String} (h : Tabled store choice agents names)
    (hr : store.Founded) (hle : store ≤ later) : Tabled later choice agents names :=
  fun name hname => (h name hname).mono hr hle

theorem Shows.mono {later : Store} {pair : Action × PairPredicates}
    (h : Shows store choice answer pair) (hr : store.Founded) (hle : store ≤ later) :
    Shows later choice answer pair :=
  ⟨h.agent.mono hr hle, h.reaction.mono hr hle, h.both.mono hr hle⟩

theorem Listed.mono {later : Store} (h : Listed store choice answer actions pairs)
    (hr : store.Founded) (hle : store ≤ later) : Listed later choice answer actions pairs :=
  ⟨h.actions_eq, fun pair hpair => (h.shows_mem pair hpair).mono hr hle⟩

variable [Store.Soundness sound]

theorem yields_allPredicates (hs : sound store)
    (hagents : Tabled store choice agents (actions.map (·.agent)))
    (hreactions : Tabled store answer reactions (actions.map (·.reaction))) :
    PlanningGame.Yields sound (allPredicates agents reactions actions) store fun predicates later =>
      Listed later choice answer actions (actions.zip predicates) := by
  have hpair : ∀ action ∈ actions, ∀ now : Store, sound now → store ≤ now →
      PlanningGame.Yields sound (pairPredicates agents reactions action) now fun pair later =>
        Shows later choice answer (action, pair) := by
    intro action haction now hnow hle
    have hagent := (hagents _ (List.mem_map_of_mem haction)).mono (founded hs) hle
    have hreaction := (hreactions _ (List.mem_map_of_mem haction)).mono (founded hs) hle
    apply (Diagram.ensures_conj hnow hagent hreaction).yields.bind
    intro both later hlater hle' he
    exact yields_pure hlater
      ⟨hagent.mono (founded hnow) hle', hreaction.mono (founded hnow) hle', he⟩
  refine (yields_mapM hs (fun action pair now later hnow hle h =>
    h.mono (founded hnow) hle) hpair).weaken
      fun predicates later _ _ h => ?_
  obtain ⟨hlength, hshows⟩ := List.forall₂_iff_zip.1 h
  exact ⟨List.map_fst_zip hlength.le, fun pair hmem => hshows hmem⟩

theorem ensures_someSelected (hs : sound store) (h : Listed store choice answer actions pairs)
    (wanted : Action → Bool) :
    Diagram.EnsuresIn sound (someSelected pairs wanted) store fun e later =>
      later.Denotes e fun a =>
        ∃ action ∈ actions, wanted action = true ∧ Selected (choice a) (answer a) action := by
  have heach : store.DenotesEach (fun pair a => Selected (choice a) (answer a) pair.1)
      (pairs.filter fun pair => wanted pair.1)
      ((pairs.filter fun pair => wanted pair.1).map fun pair => pair.2.both) := by
    refine List.forall₂_map_right_iff.2 (List.forall₂_same.2 fun pair hpair => ?_)
    exact (h.shows_mem pair (List.mem_of_mem_filter hpair)).both
  refine (Diagram.ensures_disjAll_each hs heach).weaken fun e later _ _ he => he.congr fun a => ?_
  simp only [← h.actions_eq, List.mem_map, exists_exists_and_eq_and, List.mem_filter, and_assoc]

/-- A fluent holds next if it is added, or if it holds and is not deleted. -/
theorem yields_nextFluent (hm : StandsIn sound registry manager) (hid : Owns registry id vars)
    (h : Listed manager.store choice answer actions pairs) (fluent : Nat) :
    YieldsIn sound registry (nextFluent id pairs fluent) manager fun e later =>
      later.store.Denotes e fun a =>
        ((vars.map a)[fluent]? = some true ∧
          ¬ ∃ action ∈ actions, action.deletes.contains fluent = true ∧
            Selected (choice a) (answer a) action) ∨
        ∃ action ∈ actions, action.adds.contains fluent = true ∧
          Selected (choice a) (answer a) action := by
  unfold nextFluent
  apply (yields_lift hm (ensures_someSelected hm.sound h _).yields).bind
  intro added m₁ hm₁ hle₁ hadded
  apply (yields_lift hm₁ (ensures_someSelected hm₁.sound
    (h.mono (founded hm.sound) hle₁.1) _).yields).bind
  intro deleted m₂ hm₂ hle₂ hdeleted
  refine (yields_stateBit hm₂ hid fluent).bind fun bit m₃ hm₃ hle₃ ⟨_, hbit⟩ => ?_
  have hdeleted := (hdeleted.mono (founded hm₂.sound) hle₃.1).neg (founded hm₃.sound)
  apply (yields_lift hm₃ (Diagram.ensures_conj hm₃.sound hbit hdeleted).yields).bind
  intro kept m₄ hm₄ hle₄ hkept
  have hadded := hadded.mono (founded hm₁.sound) ((hle₂.trans hle₃).trans hle₄).1
  exact yields_lift hm₄ (Diagram.ensures_disj hm₄.sound hkept hadded).yields

/-- The outputs that select an action with a given reaction, for the pairs met so far. -/
structure Legal (store : Store) (choice : Valuation → Option String) (met : List Action)
    (legal : Std.TreeMap String Edge) : Prop where
  keys : ∀ reaction : String, reaction ∈ legal ↔ ∃ action ∈ met, action.reaction = reaction
  edges : ∀ reaction : String, store.Denotes (legal.getD reaction .zero) fun a =>
    ∃ action ∈ met, action.reaction = reaction ∧ choice a = some action.agent

/-- A reaction that is listed belongs to a pair that was met. -/
theorem Legal.of_mem_toList {met : List Action} {legal : Std.TreeMap String Edge}
    (h : Legal store choice met legal) {p : String × Edge} (hp : p ∈ legal.toList) :
    p.1 ∈ met.map (·.reaction) ∧ store.Denotes p.2 fun a =>
      ∃ action ∈ met, action.reaction = p.1 ∧ choice a = some action.agent := by
  have hfound : legal[p.1]? = some p.2 := Std.TreeMap.mem_toList_iff_getElem?_eq_some.1 hp
  have hkey : p.1 ∈ legal := by
    rw [Std.TreeMap.mem_iff_isSome_getElem?, hfound]
    rfl
  have he := h.edges p.1
  rw [Std.TreeMap.getD_eq_getD_getElem?, hfound, Option.getD_some] at he
  exact ⟨List.mem_map.2 ((h.keys p.1).1 hkey), he⟩

theorem yields_legalAgents {legal : Std.TreeMap String Edge} {met : List Action}
    (hs : sound store) (hlegal : Legal store choice met legal)
    (hpairs : ∀ pair ∈ pairs, Shows store choice answer pair) :
    PlanningGame.Yields sound (legalAgents legal pairs) store fun legal later =>
      Legal later choice (met ++ pairs.map Prod.fst) legal := by
  induction pairs generalizing store legal met with
  | nil =>
    rw [List.map_nil, List.append_nil]
    exact yields_pure hs hlegal
  | cons pair rest ih =>
    obtain ⟨action, predicates⟩ := pair
    obtain ⟨hpair, hrest⟩ := List.forall_mem_cons.1 hpairs
    rw [legalAgents]
    refine (Diagram.ensures_disj hs (hlegal.edges action.reaction) hpair.agent).yields.bind
      fun e later hlater hle he => ?_
    rw [List.map_cons, List.append_cons]
    refine ih hlater ⟨fun reaction => ?_, fun reaction => ?_⟩ fun p hp =>
      (hrest p hp).mono (founded hs) hle
    · rw [Std.TreeMap.mem_insert, hlegal.keys, Std.LawfulEqOrd.compare_eq_iff_eq]
      simp only [List.mem_append, List.mem_singleton, or_and_right, exists_or, exists_eq_left]
      exact or_comm
    · rw [Std.TreeMap.getD_insert]
      split
      · next heq =>
        obtain rfl := Std.LawfulEqOrd.eq_of_compare heq
        refine he.congr fun a => ?_
        simp only [List.mem_append, List.mem_singleton, or_and_right, exists_or, exists_eq_left,
          true_and]
      · next hne =>
        refine ((hlegal.edges reaction).mono (founded hs) hle).congr fun a => ?_
        have : action.reaction ≠ reaction := fun heq =>
          hne (Std.LawfulEqOrd.compare_eq_iff_eq.2 heq)
        simp only [List.mem_append, List.mem_singleton, or_and_right, exists_or, exists_eq_left,
          this, false_and, or_false]

/-- The reaction that is selected belongs to a pair that is selected. -/
theorem yields_reactionLegal (hs : sound store) (h : Listed store choice answer actions pairs)
    (hreactions : Tabled store answer reactions (actions.map (·.reaction)))
    (hanswer : ∀ a reaction, answer a = some reaction →
      ∃ action ∈ actions, action.reaction = reaction) :
    PlanningGame.Yields sound (reactionLegal reactions pairs) store fun e later =>
      later.Denotes e fun a => ∀ reaction, answer a = some reaction →
        ∃ action ∈ actions, Selected (choice a) (answer a) action := by
  have hnone : Legal store choice [] ∅ :=
    ⟨fun _ => by simp, fun _ => (founded hs).denotes_zero.congr fun _ => by simp⟩
  unfold reactionLegal
  apply (yields_legalAgents hs hnone h.shows_mem).bind
  intro legal now hnow hle hlegal
  rw [List.nil_append, h.actions_eq] at hlegal
  have himply : ∀ p ∈ legal.toList, ∀ m : Store, sound m → now ≤ m →
      PlanningGame.Yields sound (Diagram.imply (reactions.cube p.1) p.2) m fun e later =>
        later.Denotes e fun a => answer a = some p.1 →
          ∃ action ∈ actions, action.reaction = p.1 ∧ choice a = some action.agent := by
    intro p hp m hm hle'
    obtain ⟨hreaction, he⟩ := hlegal.of_mem_toList hp
    have hcube := (hreactions p.1 hreaction).mono (founded hs) (hle.trans hle')
    exact (Diagram.ensures_imply hm hcube (he.mono (founded hnow) hle')).yields
  apply (yields_mapM hnow (fun p e m later hm hle he => he.mono (founded hm) hle) himply).bind
  intro answers later hlater _ hanswers
  refine (Diagram.ensures_conjAll_each hlater hanswers).yields.weaken
    fun e last _ _ he => he.congr fun a => ?_
  constructor
  · intro hall reaction hreaction
    have hkey : reaction ∈ legal := (hlegal.keys reaction).2 (hanswer a reaction hreaction)
    obtain ⟨e, he⟩ := Option.isSome_iff_exists.1 (Std.TreeMap.mem_iff_isSome_getElem?.1 hkey)
    obtain ⟨action, hmem, rfl, hagent⟩ :=
      hall (reaction, e) (Std.TreeMap.mem_toList_iff_getElem?_eq_some.2 he) hreaction
    exact ⟨action, hmem, hagent, hreaction⟩
  · rintro hall ⟨reaction, e⟩ _ hreaction
    obtain ⟨action, hmem, hagent, hselected⟩ := hall reaction hreaction
    exact ⟨action, hmem, Option.some.inj (hselected.symm.trans hreaction), hagent⟩

end Pairs

section Conditions

variable {store : Store} {choice : Valuation → Option String} {agents : CodeTable}
  [Store.Soundness sound]

/-- If an action is chosen that was not met before, then the conditions of the first of its pairs
hold. -/
theorem yields_applicable (hid : Owns registry id vars) {rest : List Action} {seen : List String}
    {edge : Edge} {P : Valuation → Prop} (hm : StandsIn sound registry manager)
    (hedge : manager.store.Denotes edge P)
    (hagents : Tabled manager.store choice agents (rest.map (·.agent)))
    (hdisjoint : strict sound → ∀ action ∈ rest, ∀ i ∈ action.required, i ∉ action.forbidden) :
    YieldsIn sound registry (applicable id agents seen edge rest) manager fun e later =>
      later.store.Denotes e fun a => P a ∧ ∀ name ∉ seen, choice a = some name →
        ∀ action, rest.find? (·.agent = name) = some action → action.Permits (vars.map a) := by
  induction rest generalizing manager seen edge P with
  | nil => exact yields_pure hm (hedge.congr fun a => by simp)
  | cons action rest ih =>
    have hfirst := fun h => (List.forall_mem_cons.1 (hdisjoint h)).1
    have hrest := fun h => (List.forall_mem_cons.1 (hdisjoint h)).2
    have hcube := hagents action.agent (by simp)
    have htable : Tabled manager.store choice agents (rest.map (·.agent)) :=
      fun name hname => hagents name (List.mem_cons_of_mem _ hname)
    rw [applicable]
    split
    · next hseen =>
      refine (ih hm hedge htable hrest).weaken fun e later _ _ he => he.congr fun a => ?_
      refine and_congr_right fun _ => forall₂_congr fun name hname => ?_
      have hne : action.agent ≠ name := fun heq => hname (heq ▸ hseen)
      rw [List.find?_cons_of_neg (by simpa using hne)]
    · next hseen =>
      refine (yields_fluentCube hm hid hfirst).bind
        fun conditions m₁ hm₁ hle₁ ⟨hconditions, _⟩ => ?_
      have hcube := hcube.mono (founded hm.sound) hle₁.1
      apply (yields_lift hm₁ (Diagram.ensures_imply hm₁.sound hcube hconditions).yields).bind
      intro permitted m₂ hm₂ hle₂ hpermitted
      have hedge := hedge.mono (founded hm.sound) (hle₁.trans hle₂).1
      apply (yields_lift hm₂ (Diagram.ensures_conj hm₂.sound hedge hpermitted).yields).bind
      intro both m₃ hm₃ hle₃ hboth
      have htable := htable.mono (founded hm.sound) ((hle₁.trans hle₂).trans hle₃).1
      refine (ih hm₃ hboth htable hrest).weaken fun e later _ _ he => he.congr fun a => ?_
      rw [and_assoc]
      refine and_congr_right fun _ => ?_
      constructor
      · rintro ⟨hhere, hlater⟩ name hname hchoice other hfind
        by_cases heq : action.agent = name
        · subst heq
          rw [List.find?_cons_of_pos (by simp)] at hfind
          obtain rfl := Option.some.inj hfind
          exact ⟨(hhere hchoice).1, (hhere hchoice).2⟩
        · rw [List.find?_cons_of_neg (by simpa using heq)] at hfind
          have hname : name ∉ action.agent :: seen := by
            simpa [hname] using fun h => heq h.symm
          exact hlater name hname hchoice other hfind
      · intro hall
        constructor
        · intro hchoice
          have := hall action.agent hseen hchoice action (List.find?_cons_of_pos (by simp))
          exact ⟨this.required, this.forbidden⟩
        · intro name hname hchoice other hfind
          obtain ⟨hne, hname⟩ := not_or.1 (mt List.mem_cons.2 hname)
          refine hall name hname hchoice other ?_
          rwa [List.find?_cons_of_neg (by simpa using fun h => hne h.symm)]

/-- The other values that a fluent needs if it holds. -/
theorem yields_excludes (hid : Owns registry id vars) (hm : StandsIn sound registry manager)
    {edge : Edge} {P : Valuation → Prop} (hedge : manager.store.Denotes edge P) (fluent : Nat)
    (failing holding : List Nat) :
    YieldsIn sound registry (excludes id edge fluent failing holding) manager fun e later =>
      later.store.Denotes e fun a => P a ∧ ((vars.map a)[fluent]? = some true →
        (∀ j ∈ failing, (vars.map a)[j]? = some false) ∧
          ∀ j ∈ holding, (vars.map a)[j]? = some true) := by
  have hneg : ∀ place ∈ failing, ∀ now, StandsIn sound registry now → manager ≤ now →
      YieldsIn sound registry (do return -(← stateBit id place)) now fun e later =>
        later.store.Denotes e fun a => (vars.map a)[place]? = some false := by
    intro place _ now hnow _
    refine (yields_stateBit hnow hid place).bind fun e later hlater _ ⟨hlt, he⟩ => ?_
    refine yields_pure hlater ((he.neg (founded hlater.sound)).congr fun a => ?_)
    rw [List.getElem?_eq_getElem (by simpa using hlt)]
    simp
  have hpos : ∀ place ∈ holding, ∀ now, StandsIn sound registry now → manager ≤ now →
      YieldsIn sound registry (stateBit id place) now fun e later =>
        later.store.Denotes e fun a => (vars.map a)[place]? = some true :=
    fun place _ now hnow _ => (yields_stateBit hnow hid place).weaken fun _ _ _ _ he => he.2
  unfold excludes
  apply (yields_mapM hm (fun i e now later hnow hle he =>
    he.mono (founded hnow.sound) hle.1) hneg).bind
  intro negative m₁ hm₁ hle₁ hnegative
  apply (yields_mapM hm₁ (fun i e now later hnow hle he => he.mono (founded hnow.sound) hle.1)
    fun place hplace now hnow hle => hpos place hplace now hnow (hle₁.trans hle)).bind
  intro positive m₂ hm₂ hle₂ hpositive
  have hnegative :
      m₂.store.DenotesEach (fun j a => (vars.map a)[j]? = some false) failing negative :=
    hnegative.imp fun _ _ he => he.mono (founded hm₁.sound) hle₂.1
  have hpositive :
      m₂.store.DenotesEach (fun j a => (vars.map a)[j]? = some true) holding positive :=
    hpositive
  have hhas : ∀ e ∈ negative ++ positive, m₂.store.Has e :=
    List.forall_mem_append.2 ⟨hnegative.has, hpositive.has⟩
  apply (yields_lift hm₂ (Diagram.ensures_conjAll hm₂.sound hhas).yields).bind
  intro others m₃ hm₃ hle₃ hothers
  have hothers := hothers.congr fun a => by
    rw [List.forall_mem_append, hnegative.forall_iff, hpositive.forall_iff]
  refine (yields_stateBit hm₃ hid fluent).bind fun bit m₄ hm₄ hle₄ ⟨_, hbit⟩ => ?_
  have hothers := hothers.mono (founded hm₃.sound) hle₄.1
  apply (yields_lift hm₄ (Diagram.ensures_imply hm₄.sound hbit hothers).yields).bind
  intro needed m₅ hm₅ hle₅ hneeded
  have hedge := hedge.mono (founded hm.sound)
    ((((hle₁.trans hle₂).trans hle₃).trans hle₄).trans hle₅).1
  exact yields_lift hm₅ (Diagram.ensures_conj hm₅.sound hedge hneeded).yields

/-- Some fluents in turn, each with its own conditions on the others. -/
theorem yields_foldlM_excludes (hid : Owns registry id vars) (hm : StandsIn sound registry manager)
    {edge : Edge} {P : Valuation → Prop} (hedge : manager.store.Denotes edge P) (fluents : List Nat)
    (failing holding : Nat → List Nat) :
    YieldsIn sound registry (fluents.foldlM (fun edge fluent =>
      excludes id edge fluent (failing fluent) (holding fluent)) edge) manager fun e later =>
      later.store.Denotes e fun a => P a ∧ ∀ i ∈ fluents, (vars.map a)[i]? = some true →
        (∀ j ∈ failing i, (vars.map a)[j]? = some false) ∧
          ∀ j ∈ holding i, (vars.map a)[j]? = some true := by
  induction fluents generalizing manager edge P with
  | nil => exact yields_pure hm (hedge.congr fun a => by simp)
  | cons fluent rest ih =>
    rw [List.foldlM_cons]
    apply (yields_excludes hid hm hedge fluent _ _).bind
    intro e now hnow hle he
    refine (ih hnow he).weaken fun r later _ _ hr => hr.congr fun a => ?_
    rw [List.forall_mem_cons, and_assoc]

theorem yields_invariantEdge (hid : Owns registry id vars) (hm : StandsIn sound registry manager)
    (invariant : Invariant) :
    YieldsIn sound registry (invariantEdge id invariant) manager fun e later =>
      later.store.Denotes e fun a => invariant.Holds (vars.map a) := by
  unfold invariantEdge
  dsimp only
  apply (yields_foldlM_excludes hid hm (founded hm.sound).denotes_one _ _ fun _ => _).bind
  intro edge now hnow _ hedge
  refine (yields_foldlM_excludes hid hnow hedge _ (fun _ => _) _).weaken
    fun e later _ _ he => he.congr fun a => ?_
  simp only [Std.TreeSet.mem_toList, List.mem_filter, decide_eq_true_eq, true_and, and_imp]
  constructor
  · exact fun h => ⟨h.1, h.2⟩
  · exact fun h => ⟨h.positive, h.negative⟩

/-- The condition of all invariants of a domain. -/
def invariantsEdge (domain : Domain) (id : BlockId) : ManagerM Edge := do
  let invariants ← domain.invariants.mapM (invariantEdge id)
  Diagram.conjAll invariants

theorem yields_invariantsEdge (hid : Owns registry id vars) (hm : StandsIn sound registry manager)
    (domain : Domain) :
    YieldsIn sound registry (invariantsEdge domain id) manager fun e later =>
      later.store.Denotes e fun a => domain.Admits (vars.map a) := by
  unfold invariantsEdge
  apply (yields_mapM hm (fun invariant e now later hnow hle he =>
    he.mono (founded hnow.sound) hle.1) fun invariant _ now hnow _ =>
      yields_invariantEdge hid hnow invariant).bind
  intro edges m₁ hm₁ _ hedges
  exact yields_lift hm₁ (Diagram.ensures_conjAll_each hm₁.sound hedges).yields

/-- The states that play may use are those that satisfy the invariants and are safe. -/
theorem playable_eq (domain : Domain) (mode : AgentErrorMode) (automaton : Automaton)
    (agentOk : Edge) : playable domain mode automaton agentOk = (do
      let invariants ← invariantsEdge domain automaton.block
      let safety ← safety domain mode automaton agentOk
      Diagram.conj invariants safety) := by
  simp only [playable, invariantsEdge, bind_assoc]

/-- The goal of a domain. -/
theorem yields_goalCube (hid : Owns registry id vars) (hm : StandsIn sound registry manager)
    {domain : Domain} (hdisjoint : strict sound → ∀ i ∈ domain.goal, i ∉ domain.goalForbidden) :
    YieldsIn sound registry (fluentCube id domain.goal domain.goalForbidden) manager fun e later =>
      later.store.Denotes e (fun a => domain.isGoal (vars.map a) = .ok true) ∧ e ≠ .zero :=
  (yields_fluentCube hm hid hdisjoint).weaken fun _ _ _ _ he =>
    ⟨he.1.congr fun _ => Domain.isGoal_eq_true_iff.symm, he.2⟩

end Conditions

end PlanningGame.Encoding
