import Mathlib
import PlanningGame.Registry
import PlanningGame.Proofs.Names

/-!
# Declared variables

A registry only grows, and as long as all variables have numbers of 32 bits, a variable has one
declaration. Variables of different names or roles are then different, no matter whether they were
declared together or claimed again later. The first variable beyond these numbers is zero.
-/
namespace PlanningGame

/-- Among numbered names, a name is found with its first place. -/
theorem lookup_zipIdx (names : List String) (first : Nat) (name : String) :
    (names.zipIdx first).lookup name = (names.idxOf? name).map (· + first) := by
  induction names generalizing first with
  | nil => rfl
  | cons other rest ih =>
    rw [List.zipIdx_cons, List.lookup_cons, List.idxOf?_cons, ih]
    by_cases heq : other = name
    · simp [heq]
    · rw [beq_false_of_ne heq, beq_false_of_ne (Ne.symm heq)]
      cases rest.idxOf? name <;> simp [Nat.add_assoc, Nat.add_comm 1]

/-- Blocks one after the other, seen from the first of them. -/
theorem Block.foldl_append (first : Block) (blocks : List Block) :
    blocks.foldl Block.append first = first.append (Block.concat blocks) := by
  induction blocks generalizing first with
  | nil => simp [Block.concat, Block.append]
  | cons block rest ih =>
    rw [List.foldl_cons, ih, show Block.concat (block :: rest) = _ from ih _]
    simp [Block.append, Function.comp_def, Nat.add_assoc]

theorem Block.concat_cons (block : Block) (rest : List Block) :
    Block.concat (block :: rest) = block.append (Block.concat rest) := by
  rw [Block.concat, List.foldl_cons, foldl_append]
  simp [Block.append]

theorem Block.vars_concat (blocks : List Block) :
    (Block.concat blocks).vars = blocks.flatMap (·.vars) := by
  induction blocks with
  | nil => rfl
  | cons block rest ih => rw [concat_cons, append, ih, List.flatMap_cons]

namespace Registry

variable {registry middle later : Registry} {d : Declaration} {v : Var} {role : Role}

/-- Declarations and blocks of the first registry stand at the same positions of the second. -/
instance : Preorder Registry where
  le earlier later :=
    (∀ (i : Nat) (d : Declaration),
      earlier.declarations[i]? = some d → later.declarations[i]? = some d) ∧
    ∀ (i : Nat) (block : Block), earlier.blocks[i]? = some block → later.blocks[i]? = some block
  le_refl _ := ⟨fun _ _ h => h, fun _ _ h => h⟩
  le_trans _ _ _ h h' :=
    ⟨fun i d hd => h'.1 i d (h.1 i d hd), fun i block hb => h'.2 i block (h.2 i block hb)⟩

/-- The variable is declared with the given name and role. -/
def Declares (registry : Registry) (d : Declaration) (v : Var) : Prop :=
  ∃ place, v = varAt place ∧ registry.declarations[place]? = some d

theorem Declares.mono (h : registry.Declares d v) (hle : registry ≤ later) :
    later.Declares d v := by
  obtain ⟨place, hv, hd⟩ := h
  exact ⟨place, hv, hle.1 place d hd⟩

theorem toNat_varAt {place : Nat} (h : place + 1 < UInt32.size) :
    (varAt place).toNat = place + 1 :=
  UInt32.toNat_ofNat_of_lt' h

theorem Declares.exists_toNat_eq (hsize : registry.size < UInt32.size)
    (h : registry.Declares d v) :
    ∃ place, v.toNat = place + 1 ∧ registry.declarations[place]? = some d := by
  obtain ⟨place, rfl, hd⟩ := h
  have hlt : place < registry.size := (Array.getElem?_eq_some_iff.1 hd).1
  exact ⟨place, toNat_varAt (by omega), hd⟩

theorem Declares.ne_zero (hsize : registry.size < UInt32.size) (h : registry.Declares d v) :
    v ≠ 0 := by
  obtain ⟨place, hv, -⟩ := h.exists_toNat_eq hsize
  rintro rfl
  exact absurd hv (by simp)

theorem Declares.unique {d' : Declaration} (hsize : registry.size < UInt32.size)
    (h : registry.Declares d v) (h' : registry.Declares d' v) : d = d' := by
  obtain ⟨place, hv, hd⟩ := h.exists_toNat_eq hsize
  obtain ⟨place', hv', hd'⟩ := h'.exists_toNat_eq hsize
  have hplace : place = place' := by omega
  subst hplace
  exact Option.some.inj (hd.symm.trans hd')

/-- Variables of different declarations are different. -/
theorem nodup_of_declares {ds : List Declaration} {vars : List Var}
    (hsize : registry.size < UInt32.size) (h : List.Forall₂ registry.Declares ds vars)
    (hds : ds.Nodup) : vars.Nodup := by
  obtain ⟨hlength, hget⟩ := List.forall₂_iff_get.1 h
  rw [List.nodup_iff_injective_get] at hds ⊢
  intro i j hij
  have hi := hget i (i.isLt.trans_eq hlength.symm) i.isLt
  have hj := hget j (j.isLt.trans_eq hlength.symm) j.isLt
  have heq := hds (hi.unique hsize (hij ▸ hj))
  exact Fin.ext (Fin.mk.inj_iff.1 heq)

theorem forall_ne_zero_of_declares {ds : List Declaration} {vars : List Var}
    (hsize : registry.size < UInt32.size) (h : List.Forall₂ registry.Declares ds vars) :
    ∀ v ∈ vars, v ≠ 0 := by
  induction h with
  | nil => simp
  | cons hv _ ih => exact List.forall_mem_cons.2 ⟨hv.ne_zero hsize, ih⟩

/-- A declared variable has one of the given declarations. -/
theorem exists_declares_of_mem {ds : List Declaration} {vars : List Var}
    (h : List.Forall₂ registry.Declares ds vars) (hv : v ∈ vars) :
    ∃ d ∈ ds, registry.Declares d v := by
  induction h with
  | nil => exact absurd hv List.not_mem_nil
  | cons hd _ ih =>
    rcases List.mem_cons.1 hv with rfl | hv
    · exact ⟨_, List.mem_cons_self, hd⟩
    · exact (ih hv).imp fun _ hd => ⟨List.mem_cons_of_mem _ hd.1, hd.2⟩

theorem nodup_map_declaration {names : List String} (role : Role) (h : names.Nodup) :
    (names.map fun name => (⟨name, role⟩ : Declaration)).Nodup :=
  h.map fun _ _ heq => (Declaration.mk.inj heq).1

/-- Declarations of different roles are different. -/
theorem disjoint_map_declaration {role other : Role} (hne : role ≠ other)
    (names others : List String) :
    (names.map fun name => (⟨name, role⟩ : Declaration)).Disjoint
      (others.map fun name => ⟨name, other⟩) := by
  intro d hd hd'
  obtain ⟨_, _, rfl⟩ := List.mem_map.1 hd
  obtain ⟨_, _, heq⟩ := List.mem_map.1 hd'
  exact hne (Declaration.mk.inj heq).2.symm

/-- The variables have the given names and the role, and nothing but variables was added. If none
of them is zero then the numbers have not run out. -/
structure Claims (registry : Registry) (role : Role) (names : List String) (vars : List Var)
    (later : Registry) : Prop where
  grows : registry ≤ later
  blocks_eq : later.blocks = registry.blocks
  size_lt : registry.size < UInt32.size → (∀ v ∈ vars, v ≠ 0) → later.size < UInt32.size
  declares : List.Forall₂ later.Declares (names.map fun name => ⟨name, role⟩) vars

theorem Claims.length_eq {names : List String} {vars : List Var}
    (h : registry.Claims role names vars later) : vars.length = names.length := by
  rw [← h.declares.length_eq, List.length_map]

theorem Claims.nil (registry : Registry) (role : Role) :
    registry.Claims role [] [] registry :=
  ⟨le_rfl, rfl, fun hsize _ => hsize, .nil⟩

theorem Claims.cons {name : String} {names : List String} {vars : List Var}
    (hv : middle.Declares ⟨name, role⟩ v) (hle : registry ≤ middle)
    (hblocks : middle.blocks = registry.blocks)
    (hsize : registry.size < UInt32.size → v ≠ 0 → middle.size < UInt32.size)
    (h : middle.Claims role names vars later) :
    registry.Claims role (name :: names) (v :: vars) later := by
  refine ⟨hle.trans h.grows, h.blocks_eq.trans hblocks, fun hregistry hzero => ?_,
    .cons (hv.mono h.grows) h.declares⟩
  obtain ⟨hv, hvars⟩ := List.forall_mem_cons.1 hzero
  exact h.size_lt (hsize hregistry hv) hvars

theorem le_declare (registry : Registry) (name : String) (role : Role) :
    registry ≤ (registry.declare name role).2 := by
  refine ⟨fun i d hd => ?_, fun _ _ h => h⟩
  have hlt : i < registry.declarations.size := (Array.getElem?_eq_some_iff.1 hd).1
  change (registry.declarations.push _)[i]? = some d
  rw [Array.getElem?_push_lt hlt, ← hd, Array.getElem?_eq_getElem hlt]

theorem declares_declare (registry : Registry) (name : String) (role : Role) :
    (registry.declare name role).2.Declares ⟨name, role⟩ (registry.declare name role).1 :=
  ⟨registry.size, rfl, Array.getElem?_push_size⟩

/-- The variable after the last number is zero. -/
theorem size_declare_lt (registry : Registry) (name : String) (role : Role)
    (hsize : registry.size < UInt32.size) (hv : (registry.declare name role).1 ≠ 0) :
    (registry.declare name role).2.size < UInt32.size := by
  have hpush : (registry.declare name role).2.size = registry.size + 1 := Array.size_push _
  by_contra hlast
  have hlast : registry.size + 1 = UInt32.size := by omega
  refine hv ?_
  change (registry.size + 1).toUInt32 = 0
  rw [hlast]
  rfl

theorem claims_declareAll (registry : Registry) (role : Role) (names : List String) :
    registry.Claims role names (registry.declareAll role names).1
      (registry.declareAll role names).2 := by
  induction names generalizing registry with
  | nil => exact .nil registry role
  | cons name rest ih =>
    exact .cons (registry.declares_declare name role) (registry.le_declare name role) rfl
      (registry.size_declare_lt name role) (ih _)

/-- A shared variable is found under the declaration that it has, with a shared role. -/
theorem isShared_of_shared? {name : String} (h : registry.shared? name = some (v, role)) :
    role.isShared = true ∧ registry.Declares ⟨name, role⟩ v := by
  obtain ⟨⟨declaration, place⟩, hmem, hfound⟩ := List.exists_of_findSome?_eq_some h
  have hplace : registry.declarations[place]? = some declaration := by
    rw [← Array.getElem?_toList]
    exact List.mem_zipIdx_iff_getElem?.1 hmem
  dsimp only at hfound
  split at hfound
  · next hname =>
    simp only [Option.some.injEq, Prod.mk.injEq] at hfound
    obtain ⟨rfl, rfl⟩ := hfound
    rw [Bool.and_eq_true, decide_eq_true_eq] at hname
    obtain ⟨hshared, rfl⟩ := hname
    exact ⟨hshared, place, rfl, hplace⟩
  · exact absurd hfound (by simp)

theorem declares_of_shared? {name : String} (h : registry.shared? name = some (v, role)) :
    registry.Declares ⟨name, role⟩ v :=
  (isShared_of_shared? h).2

/-- A claim declares a variable under a new name, finds one of the role, or is refused. -/
theorem claim_cases (registry : Registry) (role : Role) (name : String) :
    (registry.shared? name = none ∧
        registry.claim role name = .ok (registry.declare name role)) ∨
      (∃ v, registry.shared? name = some (v, role) ∧
        registry.claim role name = .ok (v, registry)) ∨
      ∃ v existing, registry.shared? name = some (v, existing) ∧ existing ≠ role ∧
        registry.claim role name = .error (.roleConflict name existing role) := by
  unfold claim
  cases hfound : registry.shared? name with
  | none => exact .inl ⟨rfl, rfl⟩
  | some found =>
    obtain ⟨v, existing⟩ := found
    by_cases hrole : existing = role
    · exact .inr (.inl ⟨v, by rw [hrole], if_pos hrole⟩)
    · exact .inr (.inr ⟨v, existing, rfl, hrole, if_neg hrole⟩)

theorem claimAll_cons_of_ok {name : String} {rest : List String}
    (h : registry.claim role name = .ok (v, middle)) :
    registry.claimAll role (name :: rest) =
      ((middle.claimAll role rest).1.map (v :: ·), (middle.claimAll role rest).2) := by
  rw [claimAll, h]
  rcases hrest : middle.claimAll role rest with ⟨error | vars, later⟩ <;> simp [hrest, Except.map]

theorem claimAll_cons_of_error {name : String} {rest : List String} {error : Error}
    (h : registry.claim role name = .error error) :
    registry.claimAll role (name :: rest) = (.error error, registry) := by
  rw [claimAll, h]

/-- Claims that are answered: the first of them, then the others. -/
theorem exists_of_claimAll_cons {name : String} {rest : List String} {vars : List Var}
    (h : registry.claimAll role (name :: rest) = (.ok vars, later)) :
    ∃ v middle others, registry.claim role name = .ok (v, middle) ∧
      middle.claimAll role rest = (.ok others, later) ∧ vars = v :: others := by
  cases hclaim : registry.claim role name with
  | error error =>
    rw [claimAll_cons_of_error hclaim] at h
    exact absurd (congrArg Prod.fst h) (by simp)
  | ok claimed =>
    obtain ⟨v, middle⟩ := claimed
    rw [claimAll_cons_of_ok hclaim] at h
    rcases hrest : middle.claimAll role rest with ⟨error | others, last⟩ <;> rw [hrest] at h
    · exact absurd (congrArg Prod.fst h) (by simp [Except.map])
    · obtain ⟨heq, rfl⟩ := Prod.mk.inj h
      exact ⟨v, middle, others, rfl, hrest, (Except.ok.inj heq).symm⟩

theorem claims_claimAll {names : List String} {vars : List Var}
    (h : registry.claimAll role names = (.ok vars, later)) :
    registry.Claims role names vars later := by
  induction names generalizing registry vars with
  | nil =>
    obtain ⟨rfl, rfl⟩ : [] = vars ∧ registry = later := by simpa [claimAll] using h
    exact .nil registry role
  | cons name rest ih =>
    obtain ⟨v, middle, others, hclaim, hrest, rfl⟩ := exists_of_claimAll_cons h
    obtain ⟨-, heq⟩ | ⟨w, hfound, heq⟩ | ⟨w, existing, -, -, heq⟩ :=
      registry.claim_cases role name <;> rw [heq] at hclaim
    · obtain ⟨rfl, rfl⟩ := Prod.mk.inj (Except.ok.inj hclaim)
      exact .cons (registry.declares_declare name role) (registry.le_declare name role) rfl
        (registry.size_declare_lt name role) (ih hrest)
    · obtain ⟨rfl, rfl⟩ := Prod.mk.inj (Except.ok.inj hclaim)
      exact .cons (declares_of_shared? hfound) le_rfl rfl (fun hsize _ => hsize) (ih hrest)
    · exact absurd hclaim (by simp)

/-- Claims keep what a declaration under a new name keeps, also if one of them is refused. -/
theorem claimAll_keeps {P : Registry → Prop} {names : List String} (h : P registry)
    (hdeclare : ∀ registry : Registry, ∀ name ∈ names, P registry →
      registry.shared? name = none → P (registry.declare name role).2) :
    P (registry.claimAll role names).2 := by
  induction names generalizing registry with
  | nil => exact h
  | cons name rest ih =>
    obtain ⟨hnew, hrest⟩ : (∀ registry, P registry → registry.shared? name = none →
        P (registry.declare name role).2) ∧ ∀ registry : Registry, ∀ name ∈ rest, P registry →
          registry.shared? name = none → P (registry.declare name role).2 :=
      ⟨fun registry => hdeclare registry name List.mem_cons_self, fun registry other hother =>
        hdeclare registry other (List.mem_cons_of_mem _ hother)⟩
    obtain ⟨hnone, hclaim⟩ | ⟨v, -, hclaim⟩ | ⟨v, existing, -, -, hclaim⟩ :=
      registry.claim_cases role name
    · rw [claimAll_cons_of_ok hclaim]
      exact ih (hnew registry h hnone) hrest
    · rw [claimAll_cons_of_ok hclaim]
      exact ih h hrest
    · rwa [claimAll_cons_of_error hclaim]

/-- Every claim lets a registry grow, also one that is refused. -/
theorem le_claimAll (registry : Registry) (role : Role) (names : List String) :
    registry ≤ (registry.claimAll role names).2 :=
  claimAll_keeps (P := (registry ≤ ·)) le_rfl
    fun middle name _ hle _ => hle.trans (middle.le_declare name role)

theorem size_declareAll (registry : Registry) (role : Role) (names : List String) :
    (registry.declareAll role names).2.size = registry.size + names.length := by
  induction names generalizing registry with
  | nil => rfl
  | cons name rest ih =>
    have hpush : (registry.declare name role).2.size = registry.size + 1 := Array.size_push _
    change (((registry.declare name role).2).declareAll role rest).2.size = _
    rw [ih, hpush, List.length_cons]
    omega

/-- Variables that were declared before are the first of a registry that has grown. -/
theorem exists_declarations_eq (h : registry ≤ later) :
    ∃ more, later.declarations.toList = registry.declarations.toList ++ more := by
  have hprefix : registry.declarations.toList <+: later.declarations.toList := by
    rw [List.prefix_iff_getElem?]
    intro i hi
    rw [Array.getElem?_toList]
    refine h.1 i _ ?_
    rw [Array.getElem_toList, Array.getElem?_eq_getElem]
  exact hprefix.imp fun _ hmore => hmore.symm

/-- A declared variable keeps its role. -/
theorem Declares.role?_eq (hsize : registry.size < UInt32.size) (h : registry.Declares d v)
    (hle : registry ≤ later) : later.role? v = some d.role := by
  have hne := h.ne_zero hsize
  obtain ⟨place, hplace, hd⟩ := h.exists_toNat_eq hsize
  rw [role?, declaration?, if_neg hne, hplace, Nat.add_sub_cancel, hle.1 place d hd,
    Option.map_some]

/-- A variable keeps its declaration. -/
theorem declaration?_mono (hle : registry ≤ later) (h : registry.declaration? v = some d) :
    later.declaration? v = some d := by
  unfold declaration? at h ⊢
  split at h
  · exact absurd h (by simp)
  · next hv => rw [if_neg hv, hle.1 _ d h]

/-- A variable keeps its role. -/
theorem role?_mono (hle : registry ≤ later) (h : registry.role? v = some role) :
    later.role? v = some role := by
  obtain ⟨d, hd, rfl⟩ := Option.map_eq_some_iff.1 h
  rw [role?, declaration?_mono hle hd, Option.map_some]

/-- A variable keeps its name. -/
theorem name?_mono {name : String} (hle : registry ≤ later) (h : registry.name? v = some name) :
    later.name? v = some name := by
  obtain ⟨d, hd, rfl⟩ := Option.map_eq_some_iff.1 h
  rw [name?, declaration?_mono hle hd, Option.map_some]

/-- A name is found where it was found before. -/
theorem shared?_mono {name : String} {found : Var × Role} (h : registry ≤ later)
    (hfound : registry.shared? name = some found) : later.shared? name = some found := by
  obtain ⟨more, hmore⟩ := exists_declarations_eq h
  unfold shared? at hfound ⊢
  rw [hmore, List.zipIdx_append, List.findSome?_append, hfound, Option.some_or]

/-- A new shared variable is found under its name. -/
theorem shared?_declare {name : String} (hrole : role.isShared = true)
    (hnew : registry.shared? name = none) :
    (registry.declare name role).2.shared? name = some ((registry.declare name role).1, role) := by
  unfold shared? at hnew ⊢
  change ((registry.declarations.push ⟨name, role⟩).toList.zipIdx).findSome? _ = _
  rw [Array.toList_push, List.zipIdx_append, List.findSome?_append, hnew, Option.none_or]
  simp [hrole, declare, size]

/-- Names are found as before if they are not those of new shared variables. -/
theorem shared?_declare_of_ne {name other : String} (h : role.isShared = true → name ≠ other) :
    (registry.declare name role).2.shared? other = registry.shared? other := by
  unfold shared?
  change ((registry.declarations.push ⟨name, role⟩).toList.zipIdx).findSome? _ = _
  have hother : ¬ (role.isShared = true ∧ name = other) := fun ⟨hrole, hname⟩ => h hrole hname
  rw [Array.toList_push, List.zipIdx_append, List.findSome?_append]
  simp [hother]

theorem shared?_declareAll (hrole : role.isShared = false) (names : List String) (name : String) :
    (registry.declareAll role names).2.shared? name = registry.shared? name := by
  induction names generalizing registry with
  | nil => rfl
  | cons other rest ih =>
    exact ih.trans (shared?_declare_of_ne (by simp [hrole]))

/-- State variables take no name away from shared variables. -/
theorem shared?_newBlock (registry : Registry) (names : List String) (labels : List (String × Nat))
    (name : String) : (registry.newBlock names labels).2.shared? name = registry.shared? name :=
  shared?_declareAll rfl names name

theorem shared?_claimAll_of_not_mem {names : List String} {name : String} (h : name ∉ names) :
    (registry.claimAll role names).2.shared? name = registry.shared? name :=
  claimAll_keeps (P := fun later => later.shared? name = registry.shared? name) rfl
    fun _ _ hother heq _ =>
      (shared?_declare_of_ne fun _ => ne_of_mem_of_not_mem hother h).trans heq

theorem shared?_of_claim (hrole : role.isShared = true) {name : String}
    (h : registry.claim role name = .ok (v, later)) : later.shared? name = some (v, role) := by
  obtain ⟨hnew, heq⟩ | ⟨w, hfound, heq⟩ | ⟨w, existing, -, -, heq⟩ :=
    registry.claim_cases role name <;> rw [heq] at h
  · obtain ⟨rfl, rfl⟩ := Prod.mk.inj (Except.ok.inj h)
    exact shared?_declare hrole hnew
  · obtain ⟨rfl, rfl⟩ := Prod.mk.inj (Except.ok.inj h)
    exact hfound
  · exact absurd h (by simp)

/-- Claimed variables are found under their names. -/
theorem shared?_of_claimAll (hrole : role.isShared = true) {names : List String} {vars : List Var}
    (h : registry.claimAll role names = (.ok vars, later)) :
    List.Forall₂ (fun name v => later.shared? name = some (v, role)) names vars := by
  induction names generalizing registry vars with
  | nil =>
    obtain ⟨rfl, rfl⟩ : [] = vars ∧ registry = later := by simpa [claimAll] using h
    exact .nil
  | cons name rest ih =>
    obtain ⟨v, middle, others, hclaim, hrest, rfl⟩ := exists_of_claimAll_cons h
    exact .cons (shared?_mono (claims_claimAll hrest).grows (shared?_of_claim hrole hclaim))
      (ih hrest)

/-- Claims are answered if no name has another role; otherwise such a name is refused. -/
theorem claimAll_result (registry : Registry) (role : Role) (hrole : role.isShared = true)
    (names : List String) :
    ((∃ vars, (registry.claimAll role names).1 = .ok vars) ∧
      ∀ name ∈ names, ∀ v existing, registry.shared? name = some (v, existing) →
        existing = role) ∨
    ∃ name ∈ names, ∃ v existing, registry.shared? name = some (v, existing) ∧ existing ≠ role ∧
      (registry.claimAll role names).1 = .error (.roleConflict name existing role) := by
  induction names generalizing registry with
  | nil => exact .inl ⟨⟨[], rfl⟩, by simp⟩
  | cons name rest ih =>
    obtain ⟨hnew, hclaim⟩ | ⟨v, hfound, hclaim⟩ | ⟨v, existing, hfound, hne, hclaim⟩ :=
      registry.claim_cases role name
    · rw [claimAll_cons_of_ok hclaim]
      have hdeclared := shared?_declare hrole hnew
      rcases ih (registry.declare name role).2 with
        ⟨⟨vars, hvars⟩, hall⟩ | ⟨other, hother, v, existing, hfound, hne, herror⟩
      · refine .inl ⟨⟨_, congrArg (Except.map _) hvars⟩,
          List.forall_mem_cons.2 ⟨?_, ?_⟩⟩
        · simp [hnew]
        · exact fun other hother v existing hfound =>
            hall other hother v existing (shared?_mono (registry.le_declare name role) hfound)
      · have hname : name ≠ other := by
          rintro rfl
          exact hne (Prod.mk.inj (Option.some.inj (hfound.symm.trans hdeclared))).2
        rw [shared?_declare_of_ne fun _ => hname] at hfound
        exact .inr ⟨other, List.mem_cons_of_mem _ hother, v, existing, hfound, hne,
          congrArg (Except.map _) herror⟩
    · rw [claimAll_cons_of_ok hclaim]
      rcases ih registry with
        ⟨⟨vars, hvars⟩, hall⟩ | ⟨other, hother, w, existing, hfound', hne, herror⟩
      · refine .inl ⟨⟨_, congrArg (Except.map _) hvars⟩,
          List.forall_mem_cons.2 ⟨?_, hall⟩⟩
        rintro w existing hw
        exact (Prod.mk.inj (Option.some.inj (hw.symm.trans hfound))).2
      · exact .inr ⟨other, List.mem_cons_of_mem _ hother, w, existing, hfound', hne,
          congrArg (Except.map _) herror⟩
    · refine .inr ⟨name, List.mem_cons_self, v, existing, hfound, hne, ?_⟩
      rw [claimAll_cons_of_error hclaim]

theorem size_claimAll_le (registry : Registry) (role : Role) (names : List String) :
    (registry.claimAll role names).2.size ≤ registry.size + names.length := by
  induction names generalizing registry with
  | nil => exact le_rfl
  | cons name rest ih =>
    rw [List.length_cons]
    obtain ⟨-, hclaim⟩ | ⟨v, -, hclaim⟩ | ⟨v, existing, -, -, hclaim⟩ :=
      registry.claim_cases role name
    · have hpush : (registry.declare name role).2.size = registry.size + 1 := Array.size_push _
      rw [claimAll_cons_of_ok hclaim]
      exact (ih (registry.declare name role).2).trans (by omega)
    · rw [claimAll_cons_of_ok hclaim]
      exact (ih registry).trans (by omega)
    · rw [claimAll_cons_of_error hclaim]
      exact Nat.le_add_right _ _

/-- A block of variables with different names, registered under a new number. If none of its
variables is zero then the numbers have not run out. -/
structure Opens (registry : Registry) (names : List String) (labels : List (String × Nat))
    (id : BlockId) (vars : List Var) (later : Registry) : Prop where
  nodup : names.Nodup
  grows : registry ≤ later
  size_lt : registry.size < UInt32.size → (∀ v ∈ vars, v ≠ 0) → later.size < UInt32.size
  declares : List.Forall₂ later.Declares (names.map fun name => ⟨name, .state id⟩) vars
  id_eq : id = registry.nextBlock
  block : later.block? id = some ⟨vars, labels⟩

theorem le_addBlock (registry : Registry) (block : Block) : registry ≤ registry.addBlock block := by
  refine ⟨fun _ _ h => h, fun i old hold => ?_⟩
  have hlt : i < registry.blocks.size := (Array.getElem?_eq_some_iff.1 hold).1
  change (registry.blocks.push block)[i]? = some old
  rw [Array.getElem?_push_lt hlt, ← hold, Array.getElem?_eq_getElem hlt]

theorem block?_addBlock (registry : Registry) (block : Block) :
    (registry.addBlock block).block? registry.nextBlock = some block :=
  Array.getElem?_push_size

theorem le_newBlock (registry : Registry) (names : List String) (labels : List (String × Nat)) :
    registry ≤ (registry.newBlock names labels).2 :=
  (claims_declareAll registry _ names).grows.trans (le_addBlock _ _)

/-- A registered block has another number than the next one. -/
theorem ne_nextBlock {id : BlockId} {block : Block} (h : registry.block? id = some block) :
    id ≠ registry.nextBlock := by
  rintro rfl
  exact absurd (Array.getElem?_eq_some_iff.1 h).1 (by simp [nextBlock])

theorem opens_newBlock (registry : Registry) {names : List String} (hnames : names.Nodup)
    (labels : List (String × Nat)) :
    ∃ vars, registry.Opens names labels (registry.newBlock names labels).1 vars
      (registry.newBlock names labels).2 := by
  have hclaims := registry.claims_declareAll (.state registry.nextBlock) names
  have hle := le_addBlock (registry.declareAll (.state registry.nextBlock) names).2
    ⟨(registry.declareAll (.state registry.nextBlock) names).1, labels⟩
  refine ⟨_, hnames, registry.le_newBlock names labels, hclaims.size_lt,
    hclaims.declares.imp fun _ _ hd => hd.mono hle, rfl, ?_⟩
  change (Array.push _ _)[registry.blocks.size]? = _
  rw [hclaims.blocks_eq, Array.getElem?_push_size]

theorem opens_newNamedBlock {names : List String} {id : BlockId}
    (h : registry.newNamedBlock names = .ok (id, later)) :
    ∃ vars, registry.Opens names names.zipIdx id vars later := by
  rw [newNamedBlock] at h
  split at h
  · exact absurd h (by simp)
  · next hnames =>
    have hopens := registry.opens_newBlock (nodup_of_firstRepeat_eq_none hnames) names.zipIdx
    rwa [Except.ok.inj h] at hopens

/-- A new block declares a variable for each name. -/
theorem size_newBlock (registry : Registry) (names : List String) (labels : List (String × Nat)) :
    (registry.newBlock names labels).2.size = registry.size + names.length :=
  registry.size_declareAll _ names

/-- State variables that nobody named have different names. -/
theorem nodup_anonymousNames (id : BlockId) (count : Nat) :
    ((List.range count).map (anonymousName id)).Nodup := by
  refine List.nodup_range.map fun i j hij => ?_
  have hrepr : Nat.repr i = Nat.repr j := by
    simpa [anonymousName] using hij
  exact Nat.repr_inj.1 hrepr

theorem opens_newAnonymousBlock (registry : Registry) (count : Nat) :
    ∃ vars, vars.length = count ∧
      registry.Opens ((List.range count).map (anonymousName registry.nextBlock)) []
        (registry.newAnonymousBlock count).1 vars (registry.newAnonymousBlock count).2 := by
  obtain ⟨vars, hopens⟩ := registry.opens_newBlock (nodup_anonymousNames _ count) []
  refine ⟨vars, ?_, hopens⟩
  simpa using hopens.declares.length_eq.symm

end Registry

end PlanningGame
