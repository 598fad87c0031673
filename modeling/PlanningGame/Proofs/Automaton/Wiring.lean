import Mathlib
import PlanningGame.Proofs.Automaton.Composition
import PlanningGame.Proofs.Encoding.Cleared
import PlanningGame.Proofs.Failing

/-!
# Wiring of a composition

A composition fails for two reasons only. A shared fluent may have no state variable in the first
automaton, or no variable that it is read through. A letter that the second automaton reads may be
left over when the shared ones are replaced. The first fault is the one that is named.

What a fluent is read through may be any input, output or alphabet variable. Its role is not asked
for, so an output of the second automaton can be replaced like a letter.
-/
namespace PlanningGame

namespace Registry

variable {registry : Registry} {name : String} {v : Var}

theorem ne_zero_of_lookup? (hsize : registry.size < UInt32.size)
    (h : registry.lookup? name = some v) : v ≠ 0 := by
  obtain ⟨⟨v, role⟩, hshared, rfl⟩ := Option.map_eq_some_iff.1 h
  exact (declares_of_shared? hshared).ne_zero hsize

end Registry

namespace Manager

variable {manager : Manager} {registry : Registry} {e : Edge} {v : Var}

theorem mem_alphabetSupport_iff : v ∈ manager.alphabetSupport e ↔
    v ∈ manager.store.support e ∧ manager.registry.role? v = some .alphabet := by
  simp [alphabetSupport]

/-- The letters below an edge come in increasing order. -/
theorem le_of_alphabetSupport_eq_cons {rest : List Var}
    (h : manager.alphabetSupport e = v :: rest) :
    ∀ w ∈ manager.alphabetSupport e, v ≤ w := by
  have hsupport : (manager.store.support e).Pairwise (compare · · = .lt) :=
    Std.TreeSet.ordered_toList
  have hsorted := hsupport.filter fun v => manager.registry.role? v = some .alphabet
  change (manager.alphabetSupport e).Pairwise _ at hsorted
  rw [h] at hsorted ⊢
  intro w hw
  rcases List.mem_cons.1 hw with rfl | hw
  · exact UInt32.le_refl w
  · exact UInt32.le_of_lt (Std.compare_eq_lt.1 (List.rel_of_pairwise_cons hsorted hw))

/-- A name has a value if there is a variable of this name. -/
theorem yields_isSome_named? (hm : Stands registry manager) (hsize : registry.size < UInt32.size)
    (name : String) :
    Yields registry (named? name) manager fun answer _ =>
      answer.isSome = (registry.lookup? name).isSome := by
  unfold named?
  refine yields_registered_bind hm ?_
  cases hv : registry.lookup? name with
  | none => exact yields_pure hm rfl
  | some v =>
    have hzero := Registry.ne_zero_of_lookup? hsize hv
    apply (yields_lift hm (Diagram.ensures_literal hm.sound hzero).yields).bind
    intro e later hlater _ _
    exact yields_pure hlater rfl

theorem completes_named? (hm : Stands registry manager) (hsize : registry.size < UInt32.size)
    (name : String) : Completes (named? name) manager := by
  intro failure later hrun
  unfold named? at hrun
  rw [run_registered_bind, hm.registry_eq] at hrun
  revert failure later
  cases hv : registry.lookup? name with
  | none => exact failsOnly_pure none
  | some v =>
    have hliteral := Diagram.ensures_literal hm.sound (Registry.ne_zero_of_lookup? hsize hv)
    exact (answers_lift hm hliteral.answers).completes_bind fun e _ _ _ _ => failsOnly_pure (some e)

end Manager

namespace Automaton

open Manager Store.Soundness Diagram

variable {registry : Registry} {store : Store} {manager : Manager} {block : Block}
  {first second : Automaton} {labels labels' : List (String × Nat)} {fluents : List SharedFluent}
  {images : Substitution} {name : String} {shared : List String}

/-- The automaton runs on a registered block whose labels lead to state variables. Each of these
has an initial and a next value. -/
structure Registered (manager : Manager) (automaton : Automaton) (labels : List (String × Nat)) :
    Prop where
  block : manager.registry.block? automaton.block = some ⟨automaton.stateVars, labels⟩
  place_lt : ∀ name place, labels.lookup name = some place → place < automaton.stateVars.length
  initial_length : automaton.initial.length = automaton.stateVars.length
  next_length : automaton.next.length = automaton.stateVars.length
  has : ∀ e ∈ automaton.next, manager.store.Has e

/-- The block has a state variable of this name, and an input, output or alphabet variable has this
name as well. -/
def Offers (registry : Registry) (block : Block) (name : String) : Prop :=
  (∃ place, block.place? name = some place) ∧ ∃ v role, registry.shared? name = some (v, role)

/-- The variable is a letter on which the function depends. -/
structure LeftOver (registry : Registry) (f : Valuation → Bool) (v : Var) : Prop where
  role_eq : registry.role? v = some .alphabet
  depends : ∃ a value, f (a.update v value) ≠ f a

/-- Blocks do not matter to roles. -/
@[simp] theorem leftOver_addBlock {f : Valuation → Bool} {v : Var} :
    LeftOver (registry.addBlock block) f v ↔ LeftOver registry f v :=
  ⟨fun h => ⟨h.role_eq, h.depends⟩, fun h => ⟨h.role_eq, h.depends⟩⟩

/-- The function of a transition when the letters of shared fluents are replaced. -/
def rewired (store : Store) (fluents : List SharedFluent) (e : Edge) (a : Valuation) : Bool :=
  store.eval e (replaced store (letterImages fluents) a)

/-- All shared fluents are found, and nothing but their letters is read by the second automaton. -/
structure Wired (manager : Manager) (block : Block) (first second : Automaton)
    (shared : List String) : Prop where
  offers : ∀ name ∈ shared, Offers manager.registry block name
  none_left : ∀ fluents, List.Forall₂ (Shares manager.registry block first) shared fluents →
    ∀ e ∈ second.next, ∀ v, ¬ LeftOver manager.registry (rewired manager.store fluents e) v

/-- The name of the first fault: of the first shared fluent that is not found or, if all are found,
of the first letter that is left over in the first transition with letters left over. -/
inductive Blames (manager : Manager) (block : Block) (first second : Automaton)
    (shared : List String) : String → Prop
  | missing {name : String} {before after : List String}
      (hshared : shared = before ++ name :: after)
      (hbefore : ∀ other ∈ before, Offers manager.registry block other)
      (h : ¬ Offers manager.registry block name) : Blames manager block first second shared name
  | left {fluents : List SharedFluent} {before after : List Edge} {e : Edge} {v : Var}
      (hfluents : List.Forall₂ (Shares manager.registry block first) shared fluents)
      (hnext : second.next = before ++ e :: after)
      (hbefore : ∀ other ∈ before, ∀ w,
        ¬ LeftOver manager.registry (rewired manager.store fluents other) w)
      (h : LeftOver manager.registry (rewired manager.store fluents e) v)
      (hleast : ∀ w, LeftOver manager.registry (rewired manager.store fluents e) w → v ≤ w) :
      Blames manager block first second shared (manager.displayName v)

/-- In a later store an edge with some variables replaced has the function that it had before. -/
theorem eval_replaced {later : Store} (hs : store.Sound) (hle : store ≤ later) {e : Edge}
    (he : store.Has e) (himages : HasImages store images) (a : Valuation) :
    later.eval e (replaced later images a) = store.eval e (replaced store images a) := by
  rw [hs.founded.eval_mono hle he, himages.replaced_eq hs.founded hle]

theorem Shares.offers {fluent : SharedFluent} (h : Shares registry block first name fluent) :
    Offers registry block name := by
  obtain ⟨place, hplace, -⟩ := h.place
  obtain ⟨⟨v, role⟩, hshared, -⟩ := Option.map_eq_some_iff.1 h.lookup
  exact ⟨⟨place, hplace⟩, v, role, hshared⟩

/-- What is read for a fluent is determined by its name. -/
theorem Shares.unique :
    Relator.RightUnique (Shares registry block first) := by
  intro name fluent other h h'
  obtain ⟨place, hplace, hnext, hinitial⟩ := h.place
  obtain ⟨place', hplace', hnext', hinitial'⟩ := h'.place
  obtain rfl := Option.some.inj (hplace.symm.trans hplace')
  have hletter := Option.some.inj (h.lookup.symm.trans h'.lookup)
  have hnext := Option.some.inj (hnext.symm.trans hnext')
  have hinitial := Option.some.inj (hinitial.symm.trans hinitial')
  cases fluent
  cases other
  simp_all

/-- A composition with a fault is not wired. -/
theorem Blames.not_wired (h : Blames manager block first second shared name) :
    ¬ Wired manager block first second shared := by
  intro hwired
  cases h with
  | missing hshared _ hname =>
    exact hname (hwired.offers name (hshared ▸ List.mem_append_right _ List.mem_cons_self))
  | left hfluents hnext _ hreads =>
    have hmem := hnext ▸ List.mem_append_right _ List.mem_cons_self
    exact hwired.none_left _ hfluents _ hmem _ hreads

/-- The letters below a diagram are those which its function reads. -/
theorem mem_alphabetSupport_iff_leftOver (hs : manager.store.Sound) {e : Edge}
    {f : Valuation → Bool} (he : manager.store.Denotes e (f · = true)) {v : Var} :
    v ∈ manager.alphabetSupport e ↔ LeftOver manager.registry f v := by
  have heval : manager.store.eval e = f := funext fun a => Bool.eq_iff_iff.2 (he.eval_iff a)
  rw [mem_alphabetSupport_iff, hs.toReduced.mem_support_iff_not_ignores he.has, Store.Ignores,
    heval]
  constructor
  · intro ⟨hdepends, hrole⟩
    push Not at hdepends
    exact ⟨hrole, hdepends⟩
  · intro ⟨hrole, a, value, hne⟩
    exact ⟨fun hignores => hne (hignores a value), hrole⟩

section Steps

variable (hm : Stands registry manager)
include hm

/-- A shared fluent is refused if it is not offered. -/
theorem failsOnly_sharedFluent (hsize : registry.size < UInt32.size)
    (hblock : registry.block? first.block = some ⟨first.stateVars, labels⟩)
    (hplace : ∀ name place, labels.lookup name = some place → place < first.stateVars.length)
    (hinitial : first.initial.length = first.stateVars.length)
    (hnext : first.next.length = first.stateVars.length) (name : String) :
    FailsOnly (fun failure => failure = .full ∨ failure = .refused (.unknownFluent name) ∧
      ¬ Offers registry ⟨first.stateVars, labels⟩ name) (first.sharedFluent name) manager := by
  unfold sharedFluent
  refine failsOnly_block_bind hm hblock ?_
  cases hfound : (⟨first.stateVars, labels⟩ : Block).place? name with
  | none =>
    refine failsOnly_throw (.inr ⟨rfl, fun h => ?_⟩)
    obtain ⟨place, hplace⟩ := h.1
    exact absurd (hfound.symm.trans hplace) (by simp)
  | some place =>
    have hlt := hplace name place hfound
    have hnamed := (completes_named? hm hsize name).weaken fun failure hfull =>
      (.inl hfull : failure = .full ∨ failure = .refused (.unknownFluent name) ∧
        ¬ Offers registry ⟨first.stateVars, labels⟩ name)
    refine hnamed.bind (yields_isSome_named? hm hsize name) fun answer m₁ hm₁ _ hanswer => ?_
    cases answer with
    | none =>
      refine failsOnly_throw (.inr ⟨rfl, fun h => ?_⟩)
      obtain ⟨v, role, hshared⟩ := h.2
      simp [Registry.lookup?, hshared] at hanswer
    | some e =>
      dsimp only
      refine failsOnly_diagrams_bind (failsOnly_note_bind hm₁ _ _ fun m₂ _ _ => ?_)
      rw [List.getElem?_eq_getElem (hnext ▸ hlt), List.getElem?_eq_getElem (hinitial ▸ hlt)]
      exact failsOnly_pure _

/-- A transition is refused if it reads a letter that is left over. The first one is named. -/
theorem failsOnly_rewire (himages : HasImages manager.store images) {e : Edge}
    (he : manager.store.Has e) {f : Valuation → Bool}
    (hf : ∀ a, manager.store.eval e (replaced manager.store images a) = f a) :
    FailsOnly (fun failure => failure = .full ∨ ∃ v,
      failure = .refused (.unknownFluent ((registry.name? v).getD (Store.plainName v))) ∧
        LeftOver registry f v ∧ ∀ w, LeftOver registry f w → v ≤ w)
      (rewire images e) manager := by
  have hsubstitute := ensures_substitute hm.sound himages he
  unfold rewire
  refine ((failsOnly_lift hsubstitute.completes).weaken fun _ hfull => .inl hfull).bind
    (yields_lift hm hsubstitute.yields) fun wired m₁ hm₁ _ hwired => ?_
  have hreads : ∀ v, v ∈ m₁.alphabetSupport wired ↔ LeftOver registry f v := fun v =>
    hm₁.registry_eq ▸ mem_alphabetSupport_iff_leftOver hm₁.sound (hwired.congr fun a => by rw [hf])
  refine failsOnly_get_bind ?_
  cases hsupport : m₁.alphabetSupport wired with
  | nil => exact failsOnly_pure wired
  | cons v rest =>
    have hv := (hreads v).1 (hsupport ▸ List.mem_cons_self)
    refine failsOnly_throw (.inr ⟨v, ?_, hv, fun w hw => ?_⟩)
    · rw [displayName, hm₁.registry_eq]
    · exact le_of_alphabetSupport_eq_cons hsupport w ((hreads w).2 hw)

/-- A transition that is rewired has no letters left. -/
theorem yields_rewire_not_leftOver (himages : HasImages manager.store images) {e : Edge}
    (he : manager.store.Has e) {f : Valuation → Bool}
    (hf : ∀ a, manager.store.eval e (replaced manager.store images a) = f a) :
    Manager.Yields registry (rewire images e) manager fun _ _ => ∀ v, ¬ LeftOver registry f v := by
  refine (yields_rewire hm himages he).weaken fun wired later hlater _ ⟨hwired, hroles⟩ v hv => ?_
  have hreads := mem_alphabetSupport_iff_leftOver hlater.sound (hwired.congr fun a => by rw [hf])
    (v := v)
  rw [hlater.registry_eq] at hreads
  exact hroles v (mem_alphabetSupport_iff.1 (hreads.2 hv)).1 hv.role_eq

/-- The transitions are rewired one after the other, up to the first with a letter left over. -/
theorem failsOnly_rewire_all (himages : HasImages manager.store images) {next : List Edge}
    (hnext : ∀ e ∈ next, manager.store.Has e) {f : Edge → Valuation → Bool}
    (hf : ∀ e ∈ next, ∀ a, manager.store.eval e (replaced manager.store images a) = f e a) :
    FailsOnly (fun failure => failure = .full ∨ ∃ before e after v, next = before ++ e :: after ∧
      (∀ other ∈ before, ∀ w, ¬ LeftOver registry (f other) w) ∧ LeftOver registry (f e) v ∧
      (∀ w, LeftOver registry (f e) w → v ≤ w) ∧
      failure = .refused (.unknownFluent ((registry.name? v).getD (Store.plainName v))))
      (next.mapM (rewire images)) manager := by
  have hstep : ∀ e ∈ next, ∀ now, Stands registry now → manager ≤ now →
      HasImages now.store images ∧ now.store.Has e ∧
        ∀ a, now.store.eval e (replaced now.store images a) = f e a := by
    intro e he now _ hle
    exact ⟨himages.mono hle.1, (hnext e he).mono hle.1, fun a =>
      (eval_replaced hm.sound hle.1 (hnext e he) himages a).trans (hf e he a)⟩
  have hfails := failsOnly_mapM_first (l := next) hm fun e he now hnow hle =>
    have h := hstep e he now hnow hle
    ⟨failsOnly_rewire hnow h.1 h.2.1 h.2.2, yields_rewire_not_leftOver hnow h.1 h.2.1 h.2.2⟩
  refine hfails.weaken ?_
  rintro failure ⟨before, e, after, heq, hbefore, hfull | ⟨v, rfl, hv, hleast⟩⟩
  · exact .inl hfull
  · exact .inr ⟨before, e, after, v, heq, hbefore, hv, hleast, rfl⟩

end Steps

section Runs

variable (hs : manager.store.Sound) (hsize : manager.registry.size < UInt32.size)
  (hfirst : Registered manager first labels) (hsecond : Registered manager second labels')
include hs hsize hfirst hsecond

theorem failsOnly_compose (shared : List String) :
    FailsOnly (fun failure => failure = .full ∨ ∃ name, failure = .refused (.unknownFluent name) ∧
      Blames manager ⟨first.stateVars, labels⟩ first second shared name)
      (first.compose second shared) manager := by
  have hm : Stands manager.registry manager := ⟨hs, rfl⟩
  have hshares := fun name now (hnow : Stands manager.registry now) =>
    yields_sharedFluent hnow hfirst.block name
  unfold compose
  -- the shared fluents are looked up one after the other
  have hfails := failsOnly_mapM_first (l := shared) hm fun name _ now hnow _ =>
    ⟨failsOnly_sharedFluent hnow hsize hfirst.block hfirst.place_lt hfirst.initial_length
      hfirst.next_length name, (hshares name now hnow).weaken fun _ _ _ _ h => h.offers⟩
  refine (hfails.weaken fun failure hfailure => ?_).bind (yields_mapM hm (fun _ _ _ _ _ _ h => h)
    fun name _ now hnow _ => hshares name now hnow) fun fluents m₁ hm₁ hle₁ hfluents => ?_
  · obtain ⟨before, name, after, heq, hbefore, hfull | ⟨rfl, hname⟩⟩ := hfailure
    · exact .inl hfull
    · exact .inr ⟨name, rfl, .missing heq hbefore hname⟩
  dsimp only
  have hblocks : m₁.registry.findBlocks? [first.block, second.block] =
      some [⟨first.stateVars, labels⟩, ⟨second.stateVars, labels'⟩] := by
    rw [hm₁.registry_eq, Registry.findBlocks?]
    simp [hfirst.block, hsecond.block]
  refine ((completes_newProductBlock hblocks).weaken fun _ hfull => .inl hfull).bind
    (yields_newProductBlock hm₁.sound hblocks) fun id m₂ hs₂ hle₂ hproduct => ?_
  obtain ⟨hregistry, hblock⟩ := hproduct
  rw [hm₁.registry_eq] at hregistry
  have hm₂ : Stands _ m₂ := ⟨hs₂, hregistry⟩
  rw [hregistry] at hblock
  refine failsOnly_diagrams_bind ?_
  have hstep : ∀ letters, second.step m₂.store second.initial letters =
      .ok (second.next.map fun e => m₂.store.eval e (second.valuation second.initial letters)) :=
    fun letters => if_pos rfl
  rw [hstep]
  refine FailsOnly.bind (failsOnly_pure _) (yields_ofExcept hm₂ (.ok _))
    fun moved m₃ hm₃ hle₃ hmoved => ?_
  obtain rfl := Except.ok.inj hmoved
  have hle := (hle₁.trans hle₂).trans hle₃
  have himages : HasImages manager.store (letterImages fluents) :=
    hasImages_letterImages hfluents hfirst.has
  have hnext := fun e he => (hsecond.has e he).mono hle.1
  have hrewired : ∀ e ∈ second.next, ∀ a, m₃.store.eval e
      (replaced m₃.store (letterImages fluents) a) = rewired manager.store fluents e a :=
    fun e he => eval_replaced hs hle.1 (hsecond.has e he) himages
  refine ((failsOnly_rewire_all hm₃ (himages.mono hle.1) hnext hrewired).weaken ?_).bind
    (yields_rewire_all hm₃ (himages.mono hle.1) hnext) fun wired m₄ hm₄ _ hwired => ?_
  · rintro failure (hfull | ⟨before, e, after, v, heq, hbefore, hv, hleast, rfl⟩)
    · exact .inl hfull
    · simp only [leftOver_addBlock] at hbefore hv hleast
      exact .inr ⟨_, rfl, .left hfluents heq hbefore hv hleast⟩
  refine failsOnly_note_bind hm₄ _ _ fun m₅ hm₅ _ => ?_
  have hinitial : (first.initial ++ second.next.map fun e => m₂.store.eval e
      (second.valuation second.initial (first.valuation first.initial
        (initialLetters fluents)))).length = (first.stateVars ++ second.stateVars).length := by
    simp [hfirst.initial_length, hsecond.next_length]
  have hlength : (first.next ++ wired).length = (first.stateVars ++ second.stateVars).length := by
    simp [hfirst.next_length, hsecond.next_length, ← hwired.1.length_eq]
  refine ((completes_create hm₅ hblock hinitial hlength _).weaken fun _ hfull => .inl hfull).bind
    (yields_create hm₅ hblock _ _ _) fun _ _ _ _ _ => failsOnly_pure _

omit hsize in
/-- A composition that is given is wired. -/
theorem yields_compose_wired (shared : List String) :
    PlanningGame.Yields (fun m : Manager => m.store.Sound) (first.compose second shared) manager
      fun _ _ => Wired manager ⟨first.stateVars, labels⟩ first second shared := by
  refine (yields_compose hs hfirst.block hsecond.block hfirst.has hsecond.has shared).weaken
    fun arena later hlater hle hcompose => ?_
  obtain ⟨fluents, wired, hfluents, hcomposed, hletters⟩ := hcompose
  refine ⟨fun name hname => ?_, fun fluents' hfluents' e he v hv => ?_⟩
  · obtain ⟨fluent, -, hshares⟩ := Store.exists_of_forall₂ hfluents.flip name hname
    exact hshares.offers
  · obtain rfl := Shares.unique.forall₂ hfluents' hfluents
    obtain ⟨w, hw, hdenotes⟩ := Store.exists_of_forall₂ hcomposed.wired.flip e he
    have himages : HasImages manager.store (letterImages fluents') :=
      hasImages_letterImages hfluents hfirst.has
    have hrewired : ∀ a, later.store.eval e (replaced later.store (letterImages fluents') a) =
        rewired manager.store fluents' e a :=
      eval_replaced hs hle.1 (hsecond.has e he) himages
    have hleft : LeftOver later.registry (rewired manager.store fluents' e) v :=
      ⟨Registry.role?_mono hle.2 hv.role_eq, hv.depends⟩
    have hmem := (mem_alphabetSupport_iff_leftOver hlater
      (hdenotes.congr fun a => Bool.eq_iff_iff.1 (hrewired a))).2 hleft
    exact absurd (hletters w hw ▸ hmem) List.not_mem_nil

/-- Unless it runs out of room, a composition gives an answer exactly if it is wired, and all that
it fails for is its first fault. -/
theorem compose_blames (shared : List String) {outcome : Except Failure Automaton} {later : Manager}
    (hrun : (first.compose second shared).run.run manager = (outcome, later))
    (hroom : outcome ≠ .error .full) :
    ((∃ arena, outcome = .ok arena) ↔
      Wired manager ⟨first.stateVars, labels⟩ first second shared) ∧
    ∀ failure, outcome = .error failure → ∃ name, failure = .refused (.unknownFluent name) ∧
      Blames manager ⟨first.stateVars, labels⟩ first second shared name := by
  have hfails : ∀ failure, outcome = .error failure →
      ∃ name, failure = .refused (.unknownFluent name) ∧
        Blames manager ⟨first.stateVars, labels⟩ first second shared name := by
    rintro failure rfl
    have key := failsOnly_compose hs hsize hfirst hsecond shared failure later hrun
    exact key.resolve_left fun hfull => hroom (hfull ▸ rfl)
  refine ⟨⟨?_, fun hwired => ?_⟩, hfails⟩
  · rintro ⟨arena, rfl⟩
    exact (yields_compose_wired hs hfirst hsecond shared arena later hrun).2.2
  · cases outcome with
    | ok arena => exact ⟨arena, rfl⟩
    | error failure =>
      obtain ⟨name, -, hblames⟩ := hfails failure rfl
      exact absurd hwired hblames.not_wired

end Runs

section Readers

/-- A variable that is turned over in each step, and an automaton that keeps the last value of a
named variable, which has the same name and the given role. -/
def readers (role : Role) : ManagerM (Automaton × Automaton) := do
  let id ← Manager.newNamedStateVars ["x"]
  let letters ← Manager.claimVars role ["x"]
  let turner ← create id [false] [-(← Manager.stateBit id 0)] .one
  let id ← Manager.newNamedStateVars ["q"]
  let keeper ← create id [false] (← letters.mapM fun v => liftM (Diagram.literal v)) .one
  return (turner, keeper)

/-- The first of the two automata. -/
def turner : Automaton :=
  { block := ⟨0⟩, stateVars := [1], initial := [false], next := [.ofIndex 2 true]
    finals := .one }

/-- The second of the two automata. -/
def keeper : Automaton :=
  { block := ⟨1⟩, stateVars := [3], initial := [false], next := [.ofIndex 3 false]
    finals := .one }

/-- The diagrams of both automata are made from the first two variables. -/
def readersSession : Session :=
  ((Session.start .blank).perform (.literal 1)).perform (.literal 2)

/-- The manager with both automata. -/
def readersManager (role : Role) : Manager :=
  { store := readersSession.store
    registry :=
      { declarations := #[⟨"x", .state ⟨0⟩⟩, ⟨"x", role⟩, ⟨"q", .state ⟨1⟩⟩]
        blocks := #[⟨[1], [("x", 0)]⟩, ⟨[3], [("q", 0)]⟩] } }

theorem run_readers (role : Role) : (readers role).run.run { store := .blank } =
    (.ok (turner, keeper), readersManager role) := by
  cases role <;> cbv

theorem readersSession_valid : readersSession.Valid := by
  have hliteral : ∀ v : Var, v ≠ 0 → ∀ s : Session, s.Admits (.literal v) := fun v hv s =>
    ⟨hv, fun e he => absurd he (by simp [Request.Uses])⟩
  have hleads : (Session.start .blank).Leads readersSession :=
    .step (.step (.refl _) (hliteral 1 (by decide) _)) (hliteral 2 (by decide) _)
  exact (hleads.valid (Session.valid_start Store.create_eq_blank)).1

/-- A label that is the only one leads to the only place. -/
theorem place_lt_of_lookup_singleton {label name : String} {place : Nat}
    (h : [(label, 0)].lookup name = some place) : place < 1 := by
  rw [List.lookup_cons] at h
  split at h
  · simp_all
  · exact absurd h (by simp)

theorem registered_turner (role : Role) : Registered (readersManager role) turner [("x", 0)] := by
  refine ⟨rfl, fun _ _ => place_lt_of_lookup_singleton, rfl, rfl, fun e he => ?_⟩
  obtain rfl := List.mem_singleton.1 he
  exact readersSession_valid.has ⟨2, false, by decide⟩ (by decide +kernel)

theorem registered_keeper (role : Role) : Registered (readersManager role) keeper [("q", 0)] := by
  refine ⟨rfl, fun _ _ => place_lt_of_lookup_singleton, rfl, rfl, fun e he => ?_⟩
  obtain rfl := List.mem_singleton.1 he
  exact readersSession_valid.has ⟨3, false, by decide⟩ (by decide +kernel)

/-- If the name is that of a letter then it has to be shared. -/
theorem readers_compose_blames :
    (∃ arena later, (turner.compose keeper ["x"]).run.run (readersManager .alphabet) =
      (.ok arena, later) ∧
      Wired (readersManager .alphabet) ⟨[1], [("x", 0)]⟩ turner keeper ["x"]) ∧
    ∃ later, (turner.compose keeper []).run.run (readersManager .alphabet) =
      (.error (.refused (.unknownFluent "x")), later) ∧
      Blames (readersManager .alphabet) ⟨[1], [("x", 0)]⟩ turner keeper [] "x" := by
  have hs := readersSession_valid.sound
  have hsize : (readersManager .alphabet).registry.size < UInt32.size := by decide
  have hturner := registered_turner .alphabet
  have hkeeper := registered_keeper .alphabet
  constructor
  · have hanswers : answersWith (turner.compose keeper ["x"]) (readersManager .alphabet)
        (fun _ _ => true) = true := by
      set_option maxRecDepth 1500 in cbv
    obtain ⟨arena, later, hrun, -⟩ := exists_run_of_answersWith hanswers
    have key := compose_blames hs hsize hturner hkeeper ["x"] hrun (by simp)
    exact ⟨arena, later, hrun, key.1.1 ⟨arena, rfl⟩⟩
  · obtain ⟨later, hrun⟩ : ∃ later, (turner.compose keeper []).run.run (readersManager .alphabet) =
        (.error (.refused (.unknownFluent "x")), later) := ⟨_, by cbv⟩
    have key := compose_blames hs hsize hturner hkeeper [] hrun (by simp)
    obtain ⟨name, heq, hblames⟩ := key.2 _ rfl
    obtain rfl : "x" = name := by simpa using heq
    exact ⟨later, hrun, hblames⟩

/-- If the name is that of an output then it is shared all the same, and the output is replaced. -/
theorem exists_composition_over_output :
    (readers .output).run.run { store := .blank } =
      (.ok (turner, keeper), readersManager .output) ∧
    (readersManager .output).registry.shared? "x" = some (2, .output) ∧
    ∃ arena later, (turner.compose keeper ["x"]).run.run (readersManager .output) =
      (.ok arena, later) ∧ arena.next = turner.next ++ turner.next := by
  refine ⟨run_readers .output, by decide +kernel, ?_⟩
  have hanswers : answersWith (turner.compose keeper ["x"]) (readersManager .output)
      (fun arena _ => arena.next = turner.next ++ turner.next) = true := by
    set_option maxRecDepth 1500 in cbv
  obtain ⟨arena, later, hrun, hnext⟩ := exists_run_of_answersWith hanswers
  exact ⟨arena, later, hrun, of_decide_eq_true hnext⟩

end Readers

end Automaton

end PlanningGame
