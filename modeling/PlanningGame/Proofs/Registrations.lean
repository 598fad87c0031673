import PlanningGame.Proofs.Manager

/-!
# Sequences of registrations

Variables and blocks come into a registry by six calls, some of which fail halfway. Whatever the
order of the calls, names of inputs, outputs and letters stay apart, every block consists of state
variables of blocks that were not put together from others, and what a block finds under a name is
a variable of this name.
-/
namespace PlanningGame

namespace Block

variable {block first second : Block} {blocks : List Block} {name : String}

theorem place?_append (first second : Block) (name : String) :
    (first.append second).place? name =
      (first.place? name).or ((second.place? name).map (first.vars.length + ·)) := by
  have hmap : ∀ labels : List (String × Nat),
      (labels.map fun label => (label.1, first.vars.length + label.2)).lookup name =
        (labels.lookup name).map (first.vars.length + ·) := by
    intro labels
    induction labels with
    | nil => rfl
    | cons label rest ih =>
      rw [List.map_cons, List.lookup_cons, List.lookup_cons, ih]
      split <;> rfl
  rw [place?, append, List.lookup_append]
  exact congrArg _ (hmap second.labels)

/-- In blocks one after the other, a name is found in the first block that has it. -/
theorem place?_concat_eq_some_iff {i : Nat} :
    (concat blocks).place? name = some i ↔
      ∃ before part after j, blocks = before ++ part :: after ∧
        (∀ earlier ∈ before, earlier.place? name = none) ∧ part.place? name = some j ∧
        i = (before.flatMap (·.vars)).length + j := by
  induction blocks generalizing i with
  | nil => simp [concat, place?]
  | cons block rest ih =>
    rw [concat_cons, place?_append]
    cases hplace : block.place? name with
    | some j =>
      rw [Option.some_or]
      constructor
      · intro hj
        exact ⟨[], block, rest, j, rfl, by simp, hplace, by simpa using hj.symm⟩
      · rintro ⟨before, part, after, j', hsplit, hnone, hpart, rfl⟩
        cases before with
        | nil =>
          obtain ⟨rfl, rfl⟩ := List.cons.inj hsplit
          rw [hplace] at hpart
          simpa using hpart
        | cons earlier before =>
          obtain ⟨rfl, -⟩ := List.cons.inj hsplit
          exact absurd (hnone block (by simp)) (by simp [hplace])
    | none =>
      rw [Option.none_or, Option.map_eq_some_iff]
      constructor
      · rintro ⟨k, hk, rfl⟩
        obtain ⟨before, part, after, j, rfl, hnone, hpart, rfl⟩ := ih.1 hk
        refine ⟨block :: before, part, after, j, rfl, ?_, hpart, ?_⟩
        · exact List.forall_mem_cons.2 ⟨hplace, hnone⟩
        · rw [List.flatMap_cons, List.length_append, Nat.add_assoc]
      · rintro ⟨before, part, after, j, hsplit, hnone, hpart, rfl⟩
        cases before with
        | nil =>
          obtain ⟨rfl, rfl⟩ := List.cons.inj hsplit
          exact absurd hpart (by simp [hplace])
        | cons earlier before =>
          obtain ⟨rfl, rfl⟩ := List.cons.inj hsplit
          refine ⟨_, ih.2 ⟨before, part, after, j, rfl, fun earlier hmem =>
            hnone earlier (List.mem_cons_of_mem _ hmem), hpart, rfl⟩, ?_⟩
          rw [List.flatMap_cons, List.length_append, Nat.add_assoc]

end Block

namespace Registry

variable {registry later : Registry} {plain : BlockId → Prop} {block : Block} {d : Declaration}
  {v : Var} {role : Role} {name : String}

/-! ### Declared variables -/

/-- The variables that have a declaration are numbered from one without a gap. -/
theorem exists_declaration?_iff :
    (∃ d, registry.declaration? v = some d) ↔ 1 ≤ v.toNat ∧ v.toNat ≤ registry.size := by
  unfold declaration? size
  by_cases hv : v = 0
  · simp [hv]
  · have hpos : v.toNat ≠ 0 := fun h => hv (UInt32.toNat_inj.1 h)
    rw [if_neg hv]
    constructor
    · rintro ⟨d, hd⟩
      have hlt := (Array.getElem?_eq_some_iff.1 hd).1
      omega
    · rintro ⟨-, hle⟩
      exact ⟨_, Array.getElem?_eq_getElem (by omega)⟩

theorem declares_iff (hsize : registry.size < UInt32.size) :
    registry.Declares d v ↔ registry.declaration? v = some d := by
  constructor
  · intro h
    obtain ⟨place, hplace, hd⟩ := h.exists_toNat_eq hsize
    rw [declaration?, if_neg (h.ne_zero hsize), hplace, Nat.add_sub_cancel, hd]
  · intro h
    unfold declaration? at h
    split at h
    · exact absurd h (by simp)
    · next hv =>
      have hpos : v.toNat ≠ 0 := fun h => hv (UInt32.toNat_inj.1 h)
      refine ⟨v.toNat - 1, ?_, h⟩
      rw [varAt, Nat.sub_add_cancel (by omega)]
      exact UInt32.ofNat_toNat.symm

theorem findBlocks?_eq_some_iff {ids : List BlockId} {blocks : List Block} :
    registry.findBlocks? ids = some blocks ↔
      List.Forall₂ (fun id block => registry.block? id = some block) ids blocks := by
  unfold findBlocks?
  induction ids generalizing blocks with
  | nil => simp [eq_comm]
  | cons id rest ih =>
    rw [List.mapM_cons, List.forall₂_cons_left_iff]
    simp only [Option.bind_eq_bind, Option.bind_eq_some_iff, Option.pure_def, Option.some.injEq, ih]
    simp only [eq_comm, exists_and_left]

theorem findBlocks?_mono (hle : registry ≤ later) {ids : List BlockId} {blocks : List Block}
    (h : registry.findBlocks? ids = some blocks) : later.findBlocks? ids = some blocks :=
  findBlocks?_eq_some_iff.2 ((findBlocks?_eq_some_iff.1 h).imp fun id _ hblock =>
    hle.2 id.index _ hblock)

/-! ### What registrations keep -/

/-- No two variables with a shared role have one name. -/
def NamesApart (registry : Registry) : Prop :=
  ∀ (i j : Nat) (d d' : Declaration), registry.declarations[i]? = some d →
    registry.declarations[j]? = some d' → d.role.isShared = true → d'.role.isShared = true →
    d.name = d'.name → i = j

theorem shared?_eq_none (h : registry.shared? name = none) {i : Nat}
    (hd : registry.declarations[i]? = some d) (hshared : d.role.isShared = true) :
    d.name ≠ name := by
  intro hname
  have hmem : (d, i) ∈ registry.declarations.toList.zipIdx :=
    List.mem_zipIdx_iff_getElem?.2 (by simpa using hd)
  have hnone := List.findSome?_eq_none_iff.1 h _ hmem
  simp [hshared, hname] at hnone

/-- A name is found with the one variable that has it and a shared role. -/
theorem NamesApart.lookup?_eq_some_iff (h : registry.NamesApart)
    (hsize : registry.size < UInt32.size) :
    registry.lookup? name = some v ↔ registry.name? v = some name ∧
      ∃ role, role.isShared = true ∧ registry.role? v = some role := by
  constructor
  · intro hv
    obtain ⟨⟨v, role⟩, hshared, rfl⟩ := Option.map_eq_some_iff.1 hv
    obtain ⟨hrole, hd⟩ := isShared_of_shared? hshared
    rw [declares_iff hsize] at hd
    exact ⟨by rw [name?, hd, Option.map_some], role, hrole, by rw [role?, hd, Option.map_some]⟩
  · rintro ⟨hname, role, hrole, hv⟩
    obtain ⟨d, hd, rfl⟩ := Option.map_eq_some_iff.1 hname
    obtain ⟨d', hd', rfl⟩ := Option.map_eq_some_iff.1 hv
    obtain rfl := Option.some.inj (hd.symm.trans hd')
    obtain ⟨i, rfl, hi⟩ := (declares_iff hsize).2 hd
    cases hfound : registry.shared? d.name with
    | none => exact absurd rfl (shared?_eq_none hfound hi hrole)
    | some found =>
      obtain ⟨w, other⟩ := found
      obtain ⟨hother, j, rfl, hj⟩ := isShared_of_shared? hfound
      rw [lookup?, hfound, Option.map_some, h i j d _ hi hj hrole hother rfl]

/-- The block consists of state variables of the `plain` blocks, and finds variables under their
own names. -/
structure Fits (registry : Registry) (plain : BlockId → Prop) (block : Block) : Prop where
  vars : ∀ v ∈ block.vars, ∃ owner name, plain owner ∧ registry.Declares ⟨name, .state owner⟩ v
  labels : ∀ name i, block.place? name = some i →
    ∃ v role, block.vars[i]? = some v ∧ registry.Declares ⟨name, role⟩ v

/-- A registry as registrations leave it, where the `plain` blocks are not put together from
others. -/
structure Coherent (plain : BlockId → Prop) (registry : Registry) : Prop where
  names : registry.NamesApart
  fits : ∀ id block, registry.block? id = some block → registry.Fits plain block

theorem NamesApart.declare (h : registry.NamesApart)
    (hnew : role.isShared = true → registry.shared? name = none) :
    (registry.declare name role).2.NamesApart := by
  intro i j d d' hi hj hd hd' hname
  have split : ∀ {k : Nat} {e : Declaration},
      (registry.declarations.push ⟨name, role⟩)[k]? = some e →
      registry.declarations[k]? = some e ∨ k = registry.declarations.size ∧ e = ⟨name, role⟩ := by
    intro k e he
    rw [Array.getElem?_push] at he
    split at he
    · next hk => exact .inr ⟨hk, (Option.some.inj he).symm⟩
    · exact .inl he
  rcases split hi with hi | ⟨rfl, rfl⟩ <;> rcases split hj with hj | ⟨rfl, rfl⟩
  · exact h i j d d' hi hj hd hd' hname
  · exact absurd hname (shared?_eq_none (hnew hd') hi hd)
  · exact absurd hname.symm (shared?_eq_none (hnew hd) hj hd')
  · rfl

theorem Fits.mono {more : BlockId → Prop} (h : registry.Fits plain block) (hle : registry ≤ later)
    (hmore : ∀ id, plain id → more id) : later.Fits more block where
  vars := fun v hv => by
    obtain ⟨owner, name, howner, hd⟩ := h.vars v hv
    exact ⟨owner, name, hmore owner howner, hd.mono hle⟩
  labels := fun name i hi => by
    obtain ⟨v, role, hv, hd⟩ := h.labels name i hi
    exact ⟨v, role, hv, hd.mono hle⟩

theorem Fits.append {first second : Block} (h : registry.Fits plain first)
    (h' : registry.Fits plain second) : registry.Fits plain (first.append second) where
  vars := fun v hv => (List.mem_append.1 hv).elim (h.vars v) (h'.vars v)
  labels := fun name i hi => by
    rw [Block.place?_append, Option.or_eq_some_iff] at hi
    rcases hi with hi | ⟨-, hi⟩
    · obtain ⟨v, role, hv, hd⟩ := h.labels name i hi
      exact ⟨v, role, List.getElem?_append_left (List.getElem?_eq_some_iff.1 hv).1 ▸ hv, hd⟩
    · obtain ⟨j, hj, rfl⟩ := Option.map_eq_some_iff.1 hi
      obtain ⟨v, role, hv, hd⟩ := h'.labels name j hj
      refine ⟨v, role, ?_, hd⟩
      rw [Block.append, List.getElem?_append_right (Nat.le_add_right _ _), Nat.add_sub_cancel_left,
        hv]

theorem fits_concat {blocks : List Block} (h : ∀ block ∈ blocks, registry.Fits plain block) :
    registry.Fits plain (Block.concat blocks) := by
  induction blocks with
  | nil => exact ⟨by simp [Block.concat], by simp [Block.concat, Block.place?]⟩
  | cons block rest ih =>
    obtain ⟨hblock, hrest⟩ := List.forall_mem_cons.1 h
    rw [Block.concat_cons]
    exact hblock.append (ih hrest)

theorem coherent_empty (plain : BlockId → Prop) : Coherent plain {} :=
  ⟨fun i j d d' hi => by simp at hi, fun id block hblock => by simp [block?] at hblock⟩

namespace Coherent

theorem mono {more : BlockId → Prop} (h : Coherent plain registry)
    (hmore : ∀ id, plain id → more id) : Coherent more registry :=
  ⟨h.names, fun id block hblock => (h.fits id block hblock).mono le_rfl hmore⟩

theorem declare (h : Coherent plain registry)
    (hnew : role.isShared = true → registry.shared? name = none) :
    Coherent plain (registry.declare name role).2 :=
  ⟨h.names.declare hnew, fun id block hblock =>
    (h.fits id block hblock).mono (registry.le_declare name role) fun _ hid => hid⟩

theorem declareAll (h : Coherent plain registry) (hrole : role.isShared = false)
    (names : List String) : Coherent plain (registry.declareAll role names).2 := by
  induction names generalizing registry with
  | nil => exact h
  | cons name rest ih => exact ih (h.declare (by simp [hrole]))

theorem addBlock (h : Coherent plain registry) (hblock : registry.Fits plain block) :
    Coherent plain (registry.addBlock block) := by
  refine ⟨h.names, fun id found hfound => ?_⟩
  have hle := le_addBlock registry block
  unfold block? Registry.addBlock at hfound
  rw [Array.getElem?_push] at hfound
  split at hfound
  · obtain rfl := Option.some.inj hfound
    exact hblock.mono hle fun _ hid => hid
  · exact (h.fits id found hfound).mono hle fun _ hid => hid

/-- New state variables make a block that is not put together from others. -/
theorem newBlock (h : Coherent plain registry) (names : List String) {labels : List (String × Nat)}
    (hlabels : ∀ name i, labels.lookup name = some i → names[i]? = some name) :
    Coherent (fun id => plain id ∨ id = registry.nextBlock) (registry.newBlock names labels).2 := by
  have hclaims := registry.claims_declareAll (.state registry.nextBlock) names
  refine ((h.declareAll rfl names).mono fun _ => Or.inl).addBlock ⟨fun v hv => ?_, ?_⟩
  · obtain ⟨d, hd, hdeclares⟩ := exists_declares_of_mem hclaims.declares hv
    obtain ⟨name, -, rfl⟩ := List.mem_map.1 hd
    exact ⟨registry.nextBlock, name, .inr rfl, hdeclares⟩
  · intro name i hi
    obtain ⟨hlt, hname⟩ := List.getElem?_eq_some_iff.1 (hlabels name i hi)
    have hlt' : i < (registry.declareAll (.state registry.nextBlock) names).1.length := by
      rwa [hclaims.length_eq]
    have hdeclares := hclaims.declares.get (by simpa using hlt) hlt'
    simp only [List.get_eq_getElem, List.getElem_map, hname] at hdeclares
    exact ⟨_, _, List.getElem?_eq_getElem hlt', hdeclares⟩

end Coherent

end Registry

/-! ### Calls one after the other -/

/-- A call that registers variables or a block. -/
inductive Registration where
  /-- State variables that are found by number only. -/
  | states (count : Nat)
  /-- State variables with names. -/
  | namedStates (names : List String)
  /-- A block of the variables of others. -/
  | product (parts : List BlockId)
  /-- Inputs, outputs or letters. -/
  | claim (role : Role) (names : List String)

namespace Registration

/-- Make the call. It answers the number of the new block, if there is one. -/
def run : Registration → ManagerM (Option BlockId)
  | states count => return some (← Manager.newStateVars count)
  | namedStates names => return some (← Manager.newNamedStateVars names)
  | product parts => return some (← Manager.newProductBlock parts)
  | claim role names => do
    let _ ← Manager.claimVars role names
    return none

/-- Whether the call creates state variables. -/
def opensStates : Registration → Bool
  | states _ | namedStates _ => true
  | product _ | claim _ _ => false

/-- What a call does to a registry, and what it answers. -/
inductive Registers (registry : Registry) :
    Registration → Except Failure (Option BlockId) → Registry → Prop
  | states (count : Nat) :
    Registers registry (.states count) (.ok (some registry.nextBlock))
      (registry.newAnonymousBlock count).2
  | namedStates {names : List String} (h : names.Nodup) :
    Registers registry (.namedStates names) (.ok (some registry.nextBlock))
      (registry.newBlock names names.zipIdx).2
  | product {parts : List BlockId} {blocks : List Block}
    (h : registry.findBlocks? parts = some blocks) :
    Registers registry (.product parts) (.ok (some registry.nextBlock))
      (registry.addBlock (Block.concat blocks))
  | claim {role : Role} {names : List String} {vars : List Var} {later : Registry}
    (h : registry.claimAll role names = (.ok vars, later)) :
    Registers registry (.claim role names) (.ok none) later
  | claimRefused {role : Role} {names : List String} {error : Error} {later : Registry}
    (h : registry.claimAll role names = (.error error, later)) :
    Registers registry (.claim role names) (.error (.refused error)) later
  | namesRefused {names : List String} {name : String} (h : firstRepeat names = some name) :
    Registers registry (.namedStates names) (.error (.refused (.duplicateVariable name))) registry
  | noBlock {parts : List BlockId} (h : registry.findBlocks? parts = none) :
    Registers registry (.product parts) (.error (.breach .outOfBounds)) registry

variable {manager : Manager} {request : Registration}

theorem registers_run (request : Registration) (manager : Manager) :
    Registers manager.registry request (request.run.run.run manager).1
      (request.run.run.run manager).2.registry := by
  cases request with
  | states count =>
    obtain ⟨message, hrun⟩ := Manager.run_newStateVars count manager
    rw [run, run_bind_of_ok hrun]
    exact .states count
  | namedStates names =>
    cases hrepeat : firstRepeat names with
    | none =>
      obtain ⟨message, hrun⟩ := Manager.run_newNamedStateVars_of_none manager hrepeat
      rw [run, run_bind_of_ok hrun]
      exact .namedStates (nodup_of_firstRepeat_eq_none hrepeat)
    | some name =>
      rw [run, run_bind_of_error (Manager.run_newNamedStateVars_of_some hrepeat)]
      exact .namesRefused hrepeat
  | product parts =>
    cases hblocks : manager.registry.findBlocks? parts with
    | none =>
      rw [run, run_bind_of_error (Manager.run_newProductBlock_of_none hblocks)]
      exact .noBlock hblocks
    | some blocks =>
      obtain ⟨message, hrun⟩ := Manager.run_newProductBlock_of_some hblocks
      rw [run, run_bind_of_ok hrun]
      exact .product hblocks
  | claim role names =>
    have hrun := Manager.run_claimVars role names manager
    cases hclaim : (manager.registry.claimAll role names).1 with
    | error error =>
      rw [hclaim] at hrun
      rw [run, run_bind_of_error hrun]
      exact .claimRefused (Prod.ext hclaim rfl)
    | ok vars =>
      rw [hclaim] at hrun
      rw [run, run_bind_of_ok hrun]
      exact .claim (Prod.ext hclaim rfl)

theorem Registers.le {registry later : Registry} {answer : Except Failure (Option BlockId)}
    (h : Registers registry request answer later) : registry ≤ later := by
  cases h with
  | states count => exact registry.le_newBlock _ _
  | namedStates => exact registry.le_newBlock _ _
  | product => exact Registry.le_addBlock registry _
  | @claim role names _ _ h | @claimRefused role names _ _ h =>
    have hle := registry.le_claimAll role names
    rwa [h] at hle
  | namesRefused | noBlock => exact le_rfl

/-- One call keeps a registry coherent, with one more block that is not put together from others if
it created state variables. -/
theorem Registers.coherent {plain : BlockId → Prop} {registry later : Registry}
    {answer : Except Failure (Option BlockId)} (h : Registers registry request answer later)
    (hregistry : registry.Coherent plain) :
    later.Coherent fun id => plain id ∨ request.opensStates = true ∧ answer = .ok (some id) := by
  have hopened : ∀ request : Registration, request.opensStates = true → ∀ id : BlockId,
      plain id ∨ id = registry.nextBlock → plain id ∨ request.opensStates = true ∧
        (.ok (some registry.nextBlock) : Except Failure (Option BlockId)) = .ok (some id) := by
    rintro request hrequest id (hid | rfl)
    · exact .inl hid
    · exact .inr ⟨hrequest, rfl⟩
  cases h with
  | states count => exact (hregistry.newBlock _ (by simp)).mono (hopened (.states count) rfl)
  | @namedStates names h =>
    refine (hregistry.newBlock names fun name i hi => ?_).mono (hopened (.namedStates names) rfl)
    rw [lookup_zipIdx] at hi
    obtain ⟨place, hplace, rfl⟩ := Option.map_eq_some_iff.1 hi
    obtain ⟨hlt, hname, -⟩ := List.idxOf?_eq_some_iff.1 hplace
    rw [Nat.add_zero, List.getElem?_eq_getElem hlt, hname]
  | product h =>
    refine (hregistry.addBlock (Registry.fits_concat fun block hblock => ?_)).mono fun _ => .inl
    obtain ⟨id, -, hid⟩ :=
      Store.exists_of_forall₂ (Registry.findBlocks?_eq_some_iff.1 h) block hblock
    exact hregistry.fits id block hid
  | @claim role names _ _ h | @claimRefused role names _ _ h =>
    have hkept : (registry.claimAll role names).2.Coherent plain :=
      Registry.claimAll_keeps hregistry fun _ _ _ hmiddle hnew => hmiddle.declare fun _ => hnew
    rw [h] at hkept
    exact hkept.mono fun _ => .inl
  | namesRefused | noBlock => exact hregistry.mono fun _ => .inl

theorem Registers.exists_blocks {registry later : Registry} {parts : List BlockId} {id : BlockId}
    (h : Registers registry (.product parts) (.ok (some id)) later) :
    ∃ blocks, registry.findBlocks? parts = some blocks ∧
      later.block? id = some (Block.concat blocks) := by
  cases h with
  | product h => exact ⟨_, h, registry.block?_addBlock _⟩

end Registration

namespace Manager

/-- Make calls one after the other, also after one that failed: their answers, and the manager
after them. -/
def registerAll (manager : Manager) :
    List Registration → List (Except Failure (Option BlockId)) × Manager
  | [] => ([], manager)
  | request :: rest =>
    let (answer, next) := request.run.run.run manager
    let (answers, last) := next.registerAll rest
    (answer :: answers, last)

variable {manager : Manager} {plain : BlockId → Prop}

theorem registerAll_append (requests more : List Registration) :
    (manager.registerAll (requests ++ more)).2 =
      ((manager.registerAll requests).2.registerAll more).2 := by
  induction requests generalizing manager with
  | nil => rfl
  | cons request rest ih => exact ih

theorem le_registerAll (manager : Manager) (requests : List Registration) :
    manager.registry ≤ (manager.registerAll requests).2.registry := by
  induction requests generalizing manager with
  | nil => exact le_rfl
  | cons request rest ih => exact (request.registers_run manager).le.trans (ih _)

theorem coherent_registerAll (h : manager.registry.Coherent plain) (requests : List Registration) :
    (manager.registerAll requests).2.registry.Coherent fun id => plain id ∨
      ∃ request, request.opensStates = true ∧
        (request, .ok (some id)) ∈ requests.zip (manager.registerAll requests).1 := by
  induction requests generalizing manager plain with
  | nil => exact h.mono fun _ => .inl
  | cons request rest ih =>
    refine (ih ((request.registers_run manager).coherent h)).mono fun id hid => ?_
    rcases hid with (hid | ⟨hopens, hanswer⟩) | ⟨later, hopens, hmem⟩
    · exact .inl hid
    · exact .inr ⟨request, hopens, hanswer ▸ List.mem_cons_self⟩
    · exact .inr ⟨later, hopens, List.mem_cons_of_mem _ hmem⟩

/-- The blocks that a product was made of are those that it was made of later as well. -/
theorem product_registerAll {requests : List Registration} {parts : List BlockId} {id : BlockId}
    (hmem : (.product parts, .ok (some id)) ∈ requests.zip (manager.registerAll requests).1) :
    ∃ blocks, (manager.registerAll requests).2.registry.findBlocks? parts = some blocks ∧
      (manager.registerAll requests).2.registry.block? id = some (Block.concat blocks) := by
  induction requests generalizing manager with
  | nil => simp at hmem
  | cons request rest ih =>
    rcases List.mem_cons.1 hmem with heq | hmem
    · obtain ⟨rfl, hanswer⟩ := Prod.mk.inj heq
      have hstep := (Registration.product parts).registers_run manager
      have hrun : ((Registration.product parts).run.run.run manager).1 = .ok (some id) :=
        hanswer.symm
      rw [hrun] at hstep
      obtain ⟨blocks, hblocks, hblock⟩ := hstep.exists_blocks
      have hrest := le_registerAll ((Registration.product parts).run.run.run manager).2 rest
      exact ⟨blocks, Registry.findBlocks?_mono (hstep.le.trans hrest) hblocks,
        hrest.2 id.index _ hblock⟩
    · exact ih hmem

/-- What holds of variables and blocks after any registrations, as long as variables have numbers of
32 bits. -/
theorem registerAll_exact {sizes : TableSizes} {journal : Journal} {origin : Manager}
    (hcreate : create sizes journal = .ok origin) (requests : List Registration)
    (hsize : (origin.registerAll requests).2.registry.size < UInt32.size) :
    let registry := (origin.registerAll requests).2.registry
    let calls := requests.zip (origin.registerAll requests).1
    -- variables are numbered from one, and keep their roles
    (∀ v, (∃ role, registry.role? v = some role) ↔ 1 ≤ v.toNat ∧ v.toNat ≤ registry.size) ∧
    (∀ before after, requests = before ++ after → ∀ v role,
      (origin.registerAll before).2.registry.role? v = some role →
      registry.role? v = some role) ∧
    -- a name is found with the one variable that has it and a shared role
    (∀ name v, registry.lookup? name = some v ↔ registry.name? v = some name ∧
      ∃ role, role.isShared = true ∧ registry.role? v = some role) ∧
    (∀ v w role role', registry.role? v = some role → registry.role? w = some role' →
      role.isShared = true → role'.isShared = true → registry.name? v = registry.name? w → v = w) ∧
    -- blocks consist of state variables of blocks that are not put together from others
    (∀ id block, registry.block? id = some block → ∀ v ∈ block.vars, ∃ owner request,
      registry.role? v = some (.state owner) ∧ request.opensStates = true ∧
      (request, .ok (some owner)) ∈ calls) ∧
    -- a block finds variables under their names
    (∀ id block, registry.block? id = some block → ∀ name i, block.place? name = some i →
      ∃ v, block.vars[i]? = some v ∧ registry.name? v = some name) ∧
    -- in a product, under the name in the first part that has it
    ∀ parts id, (.product parts, .ok (some id)) ∈ calls → ∃ blocks block,
      registry.findBlocks? parts = some blocks ∧ registry.block? id = some block ∧
      block.vars = blocks.flatMap (·.vars) ∧
      ∀ name i, block.place? name = some i ↔ ∃ before part after j,
        blocks = before ++ part :: after ∧ (∀ earlier ∈ before, earlier.place? name = none) ∧
        part.place? name = some j ∧ i = (before.flatMap (·.vars)).length + j := by
  intro registry calls
  have horigin : origin.registry.Coherent fun _ => False := by
    obtain ⟨store, -, rfl⟩ := exists_of_create hcreate
    exact Registry.coherent_empty _
  have hcoherent := (coherent_registerAll horigin requests).mono fun id hid =>
    hid.resolve_left fun h => h
  have hnames : ∀ name v, registry.lookup? name = some v ↔ registry.name? v = some name ∧
      ∃ role, role.isShared = true ∧ registry.role? v = some role :=
    fun name v => hcoherent.names.lookup?_eq_some_iff hsize
  refine ⟨fun v => ?_, ?_, hnames, ?_, ?_, ?_, ?_⟩
  · rw [← Registry.exists_declaration?_iff]
    simp only [Registry.role?, Option.map_eq_some_iff]
    constructor
    · rintro ⟨_, d, hd, -⟩
      exact ⟨d, hd⟩
    · rintro ⟨d, hd⟩
      exact ⟨_, d, hd, rfl⟩
  · rintro before after rfl v role hv
    refine Registry.role?_mono ?_ hv
    change _ ≤ (origin.registerAll (before ++ after)).2.registry
    rw [registerAll_append]
    exact le_registerAll _ after
  · intro v w role role' hv hw hrole hrole' hname
    obtain ⟨d, hd, -⟩ := Option.map_eq_some_iff.1 hv
    have hv' : registry.name? v = some d.name := by rw [Registry.name?, hd, Option.map_some]
    have hlookup := (hnames d.name v).2 ⟨hv', role, hrole, hv⟩
    rw [(hnames d.name w).2 ⟨hname ▸ hv', role', hrole', hw⟩] at hlookup
    exact (Option.some.inj hlookup).symm
  · intro id block hblock v hv
    obtain ⟨owner, name, ⟨request, hopens, hmem⟩, hd⟩ := (hcoherent.fits id block hblock).vars v hv
    exact ⟨owner, request, hd.role?_eq hsize le_rfl, hopens, hmem⟩
  · intro id block hblock name i hi
    obtain ⟨v, role, hv, hd⟩ := (hcoherent.fits id block hblock).labels name i hi
    exact ⟨v, hv, by rw [Registry.name?, (Registry.declares_iff hsize).1 hd, Option.map_some]⟩
  · intro parts id hmem
    obtain ⟨blocks, hblocks, hblock⟩ := product_registerAll hmem
    exact ⟨blocks, _, hblocks, hblock, Block.vars_concat blocks, fun name i =>
      Block.place?_concat_eq_some_iff⟩

/-- Calls of every kind, some refused: an output is declared before another name of the same call is
refused, and a product is made of a product. -/
theorem registerAll_nested :
    ∃ (origin : Manager) (requests : List Registration), create ⟨0, 0⟩ {} = .ok origin ∧
      requests = [.namedStates ["p", "q"], .claim .input ["x"], .claim .output ["y", "x"],
        .namedStates ["q", "q"], .states 1, .product [⟨0⟩, ⟨1⟩], .namedStates ["q", "r"],
        .product [⟨2⟩, ⟨3⟩, ⟨0⟩]] ∧
      (origin.registerAll requests).2.registry.size = 7 ∧
      (origin.registerAll requests).2.registry.name? 4 = some "y" ∧
      ∃ block v, (origin.registerAll requests).2.registry.block? ⟨4⟩ = some block ∧
        block.place? "q" = some 1 ∧ block.vars[1]? = some v ∧
        (origin.registerAll requests).2.registry.name? v = some "q" := by
  let origin : Manager := { store := ⟨⟨#[.terminal], #[[]]⟩, { slots := #[none] }, {}⟩ }
  let requests : List Registration := [.namedStates ["p", "q"], .claim .input ["x"],
    .claim .output ["y", "x"], .namedStates ["q", "q"], .states 1, .product [⟨0⟩, ⟨1⟩],
    .namedStates ["q", "r"], .product [⟨2⟩, ⟨3⟩, ⟨0⟩]]
  have hcreate : create ⟨0, 0⟩ {} = .ok origin := rfl
  have hsize : (origin.registerAll requests).2.registry.size = 7 := by decide +kernel
  have hplace : ((origin.registerAll requests).2.registry.block? ⟨4⟩).bind (·.place? "q") =
      some 1 := by
    decide +kernel
  have hlookup : (origin.registerAll requests).2.registry.lookup? "y" = some 4 := by
    decide +kernel
  obtain ⟨-, -, hnames, -, -, hlabels, -⟩ :=
    registerAll_exact hcreate requests (by rw [hsize]; decide)
  obtain ⟨block, hblock, hplace⟩ := Option.bind_eq_some_iff.1 hplace
  obtain ⟨v, hv, hname⟩ := hlabels _ block hblock _ 1 hplace
  exact ⟨origin, requests, hcreate, rfl, hsize, ((hnames _ _).1 hlookup).1, block, v, hblock,
    hplace, hv, hname⟩

end Manager

end PlanningGame
