import Mathlib
import PlanningGame.Manager
import PlanningGame.Proofs.Registry
import PlanningGame.Proofs.Diagram.Cube

/-!
# Operations on managers

Operations on diagrams run in a manager and leave its registry alone. While the registry stays as
it is, the blocks that it holds can be read at any time. As for stores, the order of the variables
matters only to the strict notion of soundness.
-/
namespace PlanningGame

namespace Diagram

variable {store : Store}

theorem natAbs_signedLiteral (v : Var) (value : Bool) :
    (Manager.signedLiteral v value).natAbs = v.toNat := by
  cases value <;> simp [Manager.signedLiteral]

theorem meets_signedLiteral {v : Var} (hv : v ≠ 0) (value : Bool) (a : Valuation) :
    a.Meets (Manager.signedLiteral v value) ↔ a v = value := by
  have hpos : 0 < v.toNat := Nat.pos_of_ne_zero fun h => hv (UInt32.toNat_inj.1 h)
  unfold Valuation.Meets
  have hvar : v.toNat.toUInt32 = v := UInt32.ofNat_toNat
  rw [natAbs_signedLiteral, hvar]
  have hsign : decide (0 < Manager.signedLiteral v value) = value := by
    cases value
    · exact decide_eq_false (by simp [Manager.signedLiteral])
    · exact decide_eq_true (by simpa [Manager.signedLiteral] using hpos)
  rw [hsign]

section Assignments

open Store.Soundness

variable {sound : Store → Prop} [Store.Soundness sound]

theorem var_signedLiteral (v : Var) (value : Bool) :
    (Manager.signedLiteral v value).natAbs.toUInt32 = v := by
  rw [natAbs_signedLiteral]
  exact UInt32.ofNat_toNat

/-- Values for different variables are literals over different variables. -/
theorem literals_of_nodup {assignments : List (Var × Bool)}
    (hnodup : (assignments.map Prod.fst).Nodup) (hzero : ∀ p ∈ assignments, p.1 ≠ 0) :
    Literals (assignments.map fun p => Manager.signedLiteral p.1 p.2) := by
  constructor
  · rw [List.map_map]
    have key : assignments.map (Int.natAbs ∘ fun p => Manager.signedLiteral p.1 p.2) =
        (assignments.map Prod.fst).map UInt32.toNat := by
      rw [List.map_map]
      exact List.map_congr_left fun p _ => natAbs_signedLiteral p.1 p.2
    rw [key]
    exact hnodup.map fun _ _ => UInt32.toNat_inj.1
  · intro l hl hlzero
    obtain ⟨p, hp, rfl⟩ := List.mem_map.1 hl
    have := natAbs_signedLiteral p.1 p.2
    rw [hlzero] at this
    exact hzero p hp (UInt32.toNat_inj.1 this.symm)
  · intro l hl
    obtain ⟨p, -, rfl⟩ := List.mem_map.1 hl
    rw [natAbs_signedLiteral]
    exact p.1.toNat_lt

/-- A cube of values says that the variables have them, and is not the constant false. -/
theorem ensures_cube_assigns (hs : sound store) {assignments : List (Var × Bool)}
    (hzero : ∀ p ∈ assignments, p.1 ≠ 0)
    (hnodup : strict sound → (assignments.map Prod.fst).Nodup) :
    EnsuresIn sound (cube (assignments.map fun p => Manager.signedLiteral p.1 p.2)) store
      fun e later => later.Denotes e (fun a => ∀ p ∈ assignments, a p.1 = p.2) ∧ e ≠ .zero := by
  have hvar : ∀ l ∈ assignments.map fun p => Manager.signedLiteral p.1 p.2,
      l.natAbs.toUInt32 ≠ 0 := by
    rw [List.forall_mem_map]
    intro p hp
    rw [var_signedLiteral]
    exact hzero p hp
  refine (ensures_cube hs hvar fun h => literals_of_nodup (hnodup h) hzero).weaken
    fun e later _ _ ⟨he, hne⟩ => ⟨he.congr fun a => ?_, hne⟩
  rw [List.forall_mem_map]
  exact forall₂_congr fun p hp => meets_signedLiteral (hzero p hp) p.2 a

theorem forall_mem_zip_iff {vars : List Var} {values : List Bool}
    (hlength : values.length = vars.length) (a : Valuation) :
    (∀ p ∈ vars.zip values, a p.1 = p.2) ↔ vars.map a = values := by
  induction vars generalizing values with
  | nil =>
    rw [List.length_eq_zero_iff.1 hlength]
    simp
  | cons v vars ih =>
    cases values with
    | nil => exact absurd hlength (by simp)
    | cons value values =>
      rw [List.zip_cons_cons, List.forall_mem_cons, ih (by simpa using hlength), List.map_cons,
        List.cons.injEq]

theorem ensures_assignmentCube (hs : sound store) {vars : List Var} {values : List Bool}
    (hnodup : vars.Nodup) (hzero : ∀ v ∈ vars, v ≠ 0) (hlength : values.length = vars.length) :
    EnsuresIn sound (Manager.assignmentCube vars values) store
      fun e later => later.Denotes e fun a => vars.map a = values := by
  have hpairs : ∀ p ∈ vars.zip values, p.1 ≠ 0 := fun p hp => hzero p.1 (List.of_mem_zip hp).1
  have key := ensures_cube_assigns hs hpairs fun _ => by rwa [List.map_fst_zip hlength.ge]
  rw [List.map_zip_eq_zipWith] at key
  exact key.weaken fun e later _ _ he => he.1.congr fun a => forall_mem_zip_iff hlength a

end Assignments

/-- The variables of the cube of a code are not zero. -/
theorem needs_assignmentCube {vars : List Var} {values : List Bool}
    (hlength : values.length = vars.length) :
    Needs (Manager.assignmentCube vars values) (∀ v ∈ vars, v ≠ 0) := by
  refine (needs_cube _).weaken fun hliterals v hv => ?_
  rw [← List.map_fst_zip hlength.ge] at hv
  obtain ⟨p, hp, rfl⟩ := List.mem_map.1 hv
  have hmem : Manager.signedLiteral p.1 p.2 ∈
      (vars.zip values).map fun p => Manager.signedLiteral p.1 p.2 := List.mem_map_of_mem hp
  rw [List.map_zip_eq_zipWith] at hmem
  have hzero := hliterals _ hmem
  rwa [var_signedLiteral] at hzero

end Diagram

namespace Manager

variable {α β : Type} {registry : Registry} {manager : Manager} {id : BlockId} {block : Block}

/-- Store and registry have only grown. -/
instance : Preorder Manager where
  le earlier later := earlier.store ≤ later.store ∧ earlier.registry ≤ later.registry
  le_refl _ := ⟨le_rfl, le_rfl⟩
  le_trans _ _ _ h h' := ⟨h.1.trans h'.1, h.2.trans h'.2⟩

/-- A new manager has a new store and no variables. -/
theorem exists_of_create {sizes : TableSizes} {journal : Journal}
    (h : create sizes journal = .ok manager) :
    ∃ store, Store.create sizes journal = .ok store ∧ manager = { store } := by
  unfold create at h
  cases hstore : Store.create sizes journal with
  | error failure => rw [hstore] at h; exact absurd h (by simp [bind, Except.bind])
  | ok store =>
    rw [hstore] at h
    exact ⟨store, rfl, (Except.ok.inj h).symm⟩

/-- The block consists of the given variables, which differ from each other and from zero. -/
structure Owns (registry : Registry) (id : BlockId) (vars : List Var) : Prop where
  block : ∃ labels, registry.block? id = some ⟨vars, labels⟩
  nodup : vars.Nodup
  ne_zero : ∀ v ∈ vars, v ≠ 0

/-- A manager with a sound store and the given registry. -/
structure StandsIn (sound : Store → Prop) (registry : Registry) (manager : Manager) : Prop where
  sound : sound manager.store
  registry_eq : manager.registry = registry

/-- A manager whose store has ordered variables, with the given registry. -/
abbrev Stands (registry : Registry) (manager : Manager) : Prop :=
  StandsIn Store.Sound registry manager

/-- If the operation gives an answer then it is as described, in a sound store with all nodes
kept and with the registry left alone. -/
abbrev YieldsIn (sound : Store → Prop) (registry : Registry) (op : ManagerM α) (manager : Manager)
    (post : α → Manager → Prop) : Prop :=
  PlanningGame.Yields (StandsIn sound registry) op manager post

/-- What an operation yields in managers with ordered variables. -/
abbrev Yields (registry : Registry) (op : ManagerM α) (manager : Manager)
    (post : α → Manager → Prop) : Prop :=
  YieldsIn Store.Sound registry op manager post

/-- What an operation delivers in managers with ordered variables, while there is room in the
store. -/
abbrev Delivers (room : Store → Prop) (registry : Registry) (op : ManagerM α) (manager : Manager)
    (post : α → Manager → Prop) : Prop :=
  PlanningGame.Delivers (Stands registry) (fun m => room m.store) op manager post

section Operations

variable {sound : Store → Prop}

/-- An operation that leaves the registry alone, among operations that do not. -/
theorem yields_of_stands {op : ManagerM α} {strong weak : α → Manager → Prop}
    (h : YieldsIn sound registry op manager strong)
    (hw : ∀ answer later, StandsIn sound registry later → manager ≤ later → strong answer later →
      weak answer later) :
    PlanningGame.Yields (fun m : Manager => sound m.store) op manager weak := by
  intro answer later hrun
  obtain ⟨hlater, hle, hstrong⟩ := h answer later hrun
  exact ⟨hlater.sound, hle, hw answer later hlater hle hstrong⟩

theorem run_lift (op : DiagramM α) (manager : Manager) :
    (liftM op : ManagerM α).run.run manager =
      ((op.run.run manager.store).1, ⟨(op.run.run manager.store).2, manager.registry⟩) :=
  rfl

theorem yields_lift {op : DiagramM α} {post : α → Store → Prop}
    (hm : StandsIn sound registry manager) (h : PlanningGame.Yields sound op manager.store post) :
    YieldsIn sound registry (liftM op : ManagerM α) manager
      fun answer later => post answer later.store := by
  intro answer later hrun
  rw [run_lift] at hrun
  obtain ⟨hanswer, rfl⟩ := Prod.mk.inj hrun
  obtain ⟨hsound, hle, hpost⟩ := h answer _ (Prod.ext hanswer rfl)
  exact ⟨⟨hsound, hm.registry_eq⟩, ⟨hle, le_rfl⟩, hpost⟩

theorem concludes_lift {op : DiagramM α} {post : α → Store → Prop}
    {fails : Failure → Store → Prop} (hm : Stands registry manager)
    (h : Concludes Store.Sound op manager.store post fails) :
    Concludes (Stands registry) (liftM op : ManagerM α) manager
      (fun answer later => post answer later.store)
      fun failure later => fails failure later.store :=
  ⟨⟨h.sound, hm.registry_eq⟩, ⟨h.le, le_rfl⟩, h.post, h.fails⟩

theorem delivers_lift {room : Store → Prop} {op : DiagramM α} {post : α → Store → Prop}
    (hm : Stands registry manager)
    (h : PlanningGame.Delivers Store.Sound room op manager.store post) :
    Delivers room registry (liftM op : ManagerM α) manager
      fun answer later => post answer later.store :=
  ⟨⟨h.sound, hm.registry_eq⟩, ⟨h.le, le_rfl⟩, h.post, h.answers⟩

theorem run_registered_bind (next : Registry → ManagerM β) (manager : Manager) :
    (registered >>= next).run.run manager = (next manager.registry).run.run manager :=
  rfl

theorem run_block (h : manager.registry.block? id = some block) :
    (Manager.block id).run.run manager = (.ok block, manager) := by
  unfold Manager.block
  rw [run_registered_bind, h]
  rfl

theorem yields_registered_bind (hm : StandsIn sound registry manager)
    {next : Registry → ManagerM β} {post : β → Manager → Prop}
    (h : YieldsIn sound registry (next registry) manager post) :
    YieldsIn sound registry (registered >>= next) manager post := by
  intro answer later hrun
  rw [run_registered_bind, hm.registry_eq] at hrun
  exact h answer later hrun

theorem yields_get_bind {next : Manager → ManagerM β} {post : β → Manager → Prop}
    (h : YieldsIn sound registry (next manager) manager post) :
    YieldsIn sound registry (get >>= next) manager post :=
  h

theorem yields_diagrams_bind {next : Store → ManagerM β} {post : β → Manager → Prop}
    (h : YieldsIn sound registry (next manager.store) manager post) :
    YieldsIn sound registry (diagrams >>= next) manager post :=
  h

theorem yields_ofExcept (hm : StandsIn sound registry manager) (result : Except Error β) :
    YieldsIn sound registry (ofExcept result) manager fun answer _ => result = .ok answer := by
  cases result with
  | ok answer => exact yields_pure hm rfl
  | error error => exact yields_throw _

theorem yields_block (hm : StandsIn sound registry manager) (id : BlockId) :
    YieldsIn sound registry (Manager.block id) manager fun block _ =>
      registry.block? id = some block := by
  unfold Manager.block
  refine yields_registered_bind hm ?_
  cases registry.block? id with
  | none => exact yields_throw _
  | some block => exact yields_pure hm rfl

theorem yields_block_bind (hm : StandsIn sound registry manager)
    (hblock : registry.block? id = some block) {next : Block → ManagerM β}
    {post : β → Manager → Prop}
    (h : YieldsIn sound registry (next block) manager post) :
    YieldsIn sound registry (Manager.block id >>= next) manager post := by
  intro answer later hrun
  rw [run_bind_of_ok (run_block (hm.registry_eq ▸ hblock))] at hrun
  exact h answer later hrun

variable [Store.Silent sound]

theorem yields_note_bind (hm : StandsIn sound registry manager) (level : Level)
    (message : Unit → String) {next : Unit → ManagerM β} {post : β → Manager → Prop}
    (h : ∀ later, StandsIn sound registry later → manager ≤ later →
      YieldsIn sound registry (next ()) later post) :
    YieldsIn sound registry (note level message >>= next) manager post := by
  have hnote : Diagram.EnsuresIn sound (Diagram.note level message) manager.store fun _ _ => True :=
    Diagram.ensures_note hm.sound level message fun _ _ => trivial
  have key := yields_lift hm hnote.yields
  exact key.bind fun _ later hlater hle _ => h later hlater hle

theorem concludes_note_bind {fails : Failure → Manager → Prop} (hm : Stands registry manager)
    (level : Level) (message : Unit → String) {next : Unit → ManagerM β}
    {post : β → Manager → Prop} (h : ∀ later, Stands registry later → manager ≤ later →
      Concludes (Stands registry) (next ()) later post fails) :
    Concludes (Stands registry) (note level message >>= next) manager post fails := by
  have key : Concludes (Stands registry) (note level message) manager (fun _ _ => True) fails :=
    ⟨⟨Store.sound_note hm.sound level message, hm.registry_eq⟩,
      ⟨manager.store.le_note level message, le_rfl⟩, fun _ _ => trivial, fun failure heq =>
        absurd (show (Except.ok () : Except Failure Unit) = .error failure from heq) (by simp)⟩
  exact key.bind fun _ later hlater hle _ => h later hlater hle

end Operations

section Needs

variable {p : Prop}

/-- If the operation gives an answer, in a manager with the given registry, then the condition is
met and the registry is left alone. -/
abbrev Needs (registry : Registry) (op : ManagerM α) (p : Prop) : Prop :=
  PlanningGame.Needs (fun manager : Manager => manager.registry = registry) op p

theorem needs_lift {op : DiagramM α} (h : Diagram.Needs op p) :
    Needs registry (liftM op : ManagerM α) p := by
  intro manager answer later hregistry hrun
  rw [run_lift] at hrun
  obtain ⟨hanswer, rfl⟩ := Prod.mk.inj hrun
  exact ⟨hregistry, (h manager.store answer _ trivial (Prod.ext hanswer rfl)).2⟩

/-- Operations on diagrams leave the registry alone. -/
theorem needs_lift_true (op : DiagramM α) : Needs registry (liftM op : ManagerM α) True :=
  needs_lift (Diagram.needs_true op)

theorem needs_block_bind (hblock : registry.block? id = some block) {next : Block → ManagerM β}
    (h : Needs registry (next block) p) : Needs registry (Manager.block id >>= next) p := by
  intro manager answer later hregistry hrun
  rw [run_bind_of_ok (run_block (hregistry ▸ hblock))] at hrun
  exact h manager answer later hregistry hrun

/-- A state that has a cube is one of variables other than zero. -/
theorem needs_stateCube (hblock : registry.block? id = some block) (state : List Bool) :
    Needs registry (stateCube id state) (∀ v ∈ block.vars, v ≠ 0) := by
  unfold stateCube
  apply needs_block_bind hblock
  dsimp only
  split
  · next hlength => exact needs_lift (Diagram.needs_assignmentCube hlength.symm)
  · exact needs_throw _

/-- A state bit that can be read has a variable other than zero. -/
theorem needs_stateBit (hblock : registry.block? id = some block) (place : Nat) :
    Needs registry (stateBit id place) (∃ v, block.vars[place]? = some v ∧ v ≠ 0) := by
  unfold stateBit
  apply needs_block_bind hblock
  cases hv : block.vars[place]? with
  | none => exact needs_throw _
  | some v => exact needs_lift ((Diagram.needs_branch v _ _).weaken fun hzero => ⟨v, rfl, hzero⟩)

end Needs

section Bits

variable {vars : List Var} {sound : Store → Prop} [Store.Soundness sound]

/-- A bit of a state that is read off a valuation. -/
theorem getElem?_map_eq_some_iff {place : Nat} {v : Var} (h : vars[place]? = some v) (a : Valuation)
    (value : Bool) : (vars.map a)[place]? = some value ↔ a v = value := by
  rw [List.getElem?_map, h, Option.map_some, Option.some.injEq]

theorem yields_stateBit (hm : StandsIn sound registry manager) (hid : Owns registry id vars)
    (place : Nat) :
    YieldsIn sound registry (stateBit id place) manager fun e later =>
      place < vars.length ∧ later.store.Denotes e fun a => (vars.map a)[place]? = some true := by
  obtain ⟨labels, hblock⟩ := hid.block
  unfold stateBit
  refine yields_block_bind hm hblock ?_
  dsimp only
  cases hv : vars[place]? with
  | none => exact yields_throw _
  | some v =>
    have hnonzero := hid.ne_zero v (List.mem_of_getElem? hv)
    refine (yields_lift hm (Diagram.ensures_literal hm.sound hnonzero).yields).weaken
      fun e later _ _ he => ⟨(List.getElem?_eq_some_iff.1 hv).1, he.congr fun a => ?_⟩
    rw [getElem?_map_eq_some_iff hv]

theorem delivers_stateBit {room : Store → Prop}
    (hroom : ∀ store, room store → Diagram.HasRoom store)
    (hm : Stands registry manager) (hid : Owns registry id vars) {place : Nat}
    (hplace : place < vars.length) :
    Delivers room registry (stateBit id place) manager fun e later =>
      later.store.Denotes e fun a => (vars.map a)[place]? = some true := by
  obtain ⟨labels, hblock⟩ := hid.block
  have hv := List.getElem?_eq_getElem hplace
  have hnonzero := hid.ne_zero _ (List.mem_of_getElem? hv)
  have hliteral : Delivers room registry (liftM (Diagram.literal vars[place])) manager
      fun e later => later.store.Denotes e fun a => a vars[place] = true :=
    delivers_lift hm ((Diagram.ensures_literal hm.sound hnonzero).delivers.mono hroom)
  have hrun : (stateBit id place).run.run manager =
      (liftM (Diagram.literal vars[place]) : ManagerM Edge).run.run manager := by
    unfold stateBit
    rw [run_bind_of_ok (run_block (hm.registry_eq ▸ hblock))]
    dsimp only
    rw [hv]
  have hstate : Delivers room registry (stateBit id place) manager fun e later =>
      later.store.Denotes e fun a => a vars[place] = true :=
    ⟨hrun ▸ hliteral.sound, hrun ▸ hliteral.le, hrun ▸ hliteral.post, hrun ▸ hliteral.answers⟩
  exact hstate.weaken fun e later _ _ he =>
    he.congr fun a => (getElem?_map_eq_some_iff hv a true).symm

theorem yields_stateCube (hm : StandsIn sound registry manager) (hid : Owns registry id vars)
    (state : List Bool) :
    YieldsIn sound registry (stateCube id state) manager fun e later =>
      later.store.Denotes e fun a => vars.map a = state := by
  obtain ⟨labels, hblock⟩ := hid.block
  unfold stateCube
  refine yields_block_bind hm hblock ?_
  dsimp only
  split
  · next hlength =>
    exact yields_lift hm
      (Diagram.ensures_assignmentCube hm.sound hid.nodup hid.ne_zero hlength.symm).yields
  · exact yields_throw _

/-- The value of a named variable tests this variable, which is not zero. -/
theorem yields_named? (hm : StandsIn sound registry manager) (name : String) :
    YieldsIn sound registry (named? name) manager fun answer later => ∀ e, answer = some e →
      ∃ v, registry.lookup? name = some v ∧ v ≠ 0 ∧ (later.store.node e.index).var = v := by
  unfold named?
  refine yields_registered_bind hm ?_
  cases hv : registry.lookup? name with
  | none => exact yields_pure hm (by simp)
  | some v =>
    have hneeds : Needs registry (liftM (Diagram.literal v)) (v ≠ 0) :=
      needs_lift (Diagram.needs_branch v _ _)
    refine Yields.of_needs hneeds hm.registry_eq fun hzero => ?_
    apply (yields_lift hm (Diagram.ensures_literal_var hm.sound hzero).yields).bind
    intro e later hlater _ he
    refine yields_pure hlater fun answer hanswer => ?_
    exact ⟨v, rfl, hzero, Option.some.inj hanswer ▸ he⟩

end Bits

section Variables

theorem run_setRegistry_bind (registry : Registry) (next : Unit → ManagerM β) (manager : Manager) :
    (setRegistry registry >>= next).run.run manager =
      (next ()).run.run ⟨manager.store, registry⟩ :=
  rfl

theorem run_ofExcept_error (error : Error) (manager : Manager) :
    (ofExcept (.error error) : ManagerM α).run.run manager = (.error (.refused error), manager) :=
  rfl

theorem run_ofExcept_ok (value : α) (manager : Manager) :
    (ofExcept (.ok value)).run.run manager = (.ok value, manager) :=
  rfl

/-- New state variables are the next block. -/
theorem run_newStateVars (count : Nat) (manager : Manager) :
    ∃ message, (newStateVars count).run.run manager = (.ok manager.registry.nextBlock,
      ⟨manager.store.note .debug message, (manager.registry.newAnonymousBlock count).2⟩) :=
  ⟨_, rfl⟩

theorem run_newNamedStateVars_of_none (manager : Manager) {names : List String}
    (h : firstRepeat names = none) :
    ∃ message, (newNamedStateVars names).run.run manager = (.ok manager.registry.nextBlock,
      ⟨manager.store.note .debug message, (manager.registry.newBlock names names.zipIdx).2⟩) := by
  unfold newNamedStateVars
  rw [run_registered_bind, Registry.newNamedBlock, h, run_bind_of_ok (run_ofExcept_ok _ manager)]
  exact ⟨_, rfl⟩

theorem run_newNamedStateVars_of_some {names : List String} {name : String}
    (h : firstRepeat names = some name) :
    (newNamedStateVars names).run.run manager =
      (.error (.refused (.duplicateVariable name)), manager) := by
  unfold newNamedStateVars
  rw [run_registered_bind, Registry.newNamedBlock, h,
    run_bind_of_error (run_ofExcept_error _ manager)]

/-- A block that is put together from others gets the next number. -/
theorem run_newProductBlock_of_some {ids : List BlockId} {blocks : List Block}
    (h : manager.registry.findBlocks? ids = some blocks) :
    ∃ message, (newProductBlock ids).run.run manager = (.ok manager.registry.nextBlock,
      ⟨manager.store.note .debug message, manager.registry.addBlock (Block.concat blocks)⟩) := by
  unfold newProductBlock
  rw [run_registered_bind, h]
  exact ⟨_, rfl⟩

theorem run_newProductBlock_of_none {ids : List BlockId}
    (h : manager.registry.findBlocks? ids = none) :
    (newProductBlock ids).run.run manager = (.error (.breach .outOfBounds), manager) := by
  unfold newProductBlock
  rw [run_registered_bind, h]
  rfl

theorem run_claimVars (role : Role) (names : List String) (manager : Manager) :
    (claimVars role names).run.run manager =
      ((manager.registry.claimAll role names).1.mapError .refused,
        ⟨manager.store, (manager.registry.claimAll role names).2⟩) := by
  unfold claimVars
  rw [run_registered_bind]
  dsimp only
  rw [run_setRegistry_bind]
  cases (manager.registry.claimAll role names).1 <;> rfl

variable {sound : Store → Prop}

theorem yields_newNamedStateVars [Store.Silent sound] (hs : sound manager.store)
    (names : List String) :
    PlanningGame.Yields (fun m : Manager => sound m.store) (newNamedStateVars names) manager
      fun id later => manager.registry.newNamedBlock names = .ok (id, later.registry) := by
  intro id later hrun
  cases hrepeat : firstRepeat names with
  | some name =>
    rw [run_newNamedStateVars_of_some hrepeat] at hrun
    exact absurd (congrArg Prod.fst hrun) (by simp)
  | none =>
    obtain ⟨message, hok⟩ := run_newNamedStateVars_of_none manager hrepeat
    obtain ⟨hid, rfl⟩ := Prod.mk.inj (hok.symm.trans hrun)
    obtain rfl := Except.ok.inj hid
    refine ⟨Store.Silent.note _ message hs, ⟨manager.store.le_note _ message,
      manager.registry.le_newBlock names names.zipIdx⟩, ?_⟩
    rw [Registry.newNamedBlock, hrepeat]
    rfl

theorem yields_newStateVars [Store.Silent sound] (hs : sound manager.store) (count : Nat) :
    PlanningGame.Yields (fun m : Manager => sound m.store) (newStateVars count) manager
      fun id later => ∃ names vars, vars.length = count ∧
        manager.registry.Opens names [] id vars later.registry := by
  intro id later hrun
  obtain ⟨message, hok⟩ := run_newStateVars count manager
  obtain ⟨vars, hlength, hopens⟩ := manager.registry.opens_newAnonymousBlock count
  obtain ⟨hid, rfl⟩ := Prod.mk.inj (hok.symm.trans hrun)
  obtain rfl := Except.ok.inj hid
  exact ⟨Store.Silent.note _ message hs, ⟨manager.store.le_note _ message, hopens.grows⟩, _, vars,
    hlength, hopens⟩

theorem yields_newProductBlock [Store.Silent sound] (hs : sound manager.store)
    {ids : List BlockId} {blocks : List Block}
    (hblocks : manager.registry.findBlocks? ids = some blocks) :
    PlanningGame.Yields (fun m : Manager => sound m.store) (newProductBlock ids) manager
      fun id later => later.registry = manager.registry.addBlock (Block.concat blocks) ∧
        later.registry.block? id = some (Block.concat blocks) := by
  intro id later hrun
  obtain ⟨message, hok⟩ := run_newProductBlock_of_some hblocks
  obtain ⟨hid, rfl⟩ := Prod.mk.inj (hok.symm.trans hrun)
  obtain rfl := Except.ok.inj hid
  exact ⟨Store.Silent.note _ message hs,
    ⟨manager.store.le_note _ message, Registry.le_addBlock _ _⟩, rfl, Registry.block?_addBlock _ _⟩

/-- If blocks are put together then there is a new block. -/
theorem yields_newProductBlock_block [Store.Silent sound] (hs : sound manager.store)
    (ids : List BlockId) :
    PlanningGame.Yields (fun m : Manager => sound m.store) (newProductBlock ids) manager
      fun id later => ∃ block, later.registry.block? id = some block := by
  cases hblocks : manager.registry.findBlocks? ids with
  | none =>
    intro id later hrun
    rw [run_newProductBlock_of_none hblocks] at hrun
    exact absurd (congrArg Prod.fst hrun) (by simp)
  | some blocks =>
    exact (yields_newProductBlock hs hblocks).weaken fun _ _ _ _ h => ⟨_, h.2⟩

theorem yields_claimVars (hs : sound manager.store) (role : Role) (names : List String) :
    PlanningGame.Yields (fun m : Manager => sound m.store) (claimVars role names) manager
      fun vars later => manager.registry.claimAll role names = (.ok vars, later.registry) := by
  intro vars later hrun
  rw [run_claimVars] at hrun
  obtain ⟨hvars, rfl⟩ := Prod.mk.inj hrun
  cases hclaim : (manager.registry.claimAll role names).1 with
  | error error =>
    rw [hclaim] at hvars
    exact absurd hvars (by simp [Except.mapError])
  | ok claimed =>
    rw [hclaim] at hvars
    obtain rfl := Except.ok.inj hvars
    exact ⟨hs, ⟨le_rfl, manager.registry.le_claimAll role names⟩, Prod.ext hclaim rfl⟩

end Variables

end Manager

end PlanningGame
