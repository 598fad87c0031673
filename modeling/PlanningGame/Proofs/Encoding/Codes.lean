import Mathlib
import PlanningGame.Encoding
import PlanningGame.Proofs.Binary
import PlanningGame.Proofs.Manager

/-!
# Codes of names

Actions and reactions are numbered in the order of their names and written in binary on the
variables of a player. Codes beyond the last number stand for no name.
-/
namespace PlanningGame

namespace CodeTable

open Store.Soundness

variable {store : Store} {names : List String} {vars : List Var} {name : String}

theorem mem_sortedNames_iff : name ∈ sortedNames names ↔ name ∈ names := by
  simp [sortedNames]

theorem sortedNames_nodup (names : List String) : (sortedNames names).Nodup := by
  have key := Std.TreeSet.distinct_toList (t := Std.TreeSet.ofList names)
  exact key.imp fun hne heq => hne (Std.LawfulEqOrd.compare_eq_iff_eq.2 heq)

/-- There are codes for all names. -/
theorem length_le_two_pow_bits (names : List String) : names.length ≤ 2 ^ bits names := by
  have := Binary.lt_two_pow_width (names.length - 1)
  unfold bits
  omega

/-- The name whose code is on the variables, if it is the code of a name. -/
def chosen (names : List String) (vars : List Var) (a : Valuation) : Option String :=
  names[Binary.decode (vars.map a)]?

theorem mem_of_chosen {a : Valuation} (h : chosen names vars a = some name) : name ∈ names :=
  List.mem_of_getElem? h

theorem chosen_congr {a b : Valuation} (h : ∀ v ∈ vars, a v = b v) :
    chosen names vars a = chosen names vars b := by
  rw [chosen, chosen, List.map_congr_left h]

/-- Different names and different variables, as many as are needed to number the names. -/
structure Fits (names : List String) (vars : List Var) : Prop where
  names_nodup : names.Nodup
  vars_nodup : vars.Nodup
  ne_zero : ∀ v ∈ vars, v ≠ 0
  length_eq : vars.length = bits names

/-- There are codes for all names on the variables. -/
theorem Fits.length_le (h : Fits names vars) : names.length ≤ 2 ^ vars.length :=
  h.length_eq ▸ length_le_two_pow_bits names

/-- Every name can be chosen. -/
theorem Fits.exists_chosen (h : Fits names vars) (hname : name ∈ names) :
    ∃ a, chosen names vars a = some name := by
  obtain ⟨i, hi⟩ := List.mem_iff_getElem?.1 hname
  have hlt : i < names.length := (List.getElem?_eq_some_iff.1 hi).1
  refine ⟨Valuation.assign (fun _ => false) vars (Binary.encode i vars.length), ?_⟩
  rw [chosen, Valuation.map_assign _ h.vars_nodup (Binary.length_encode _ _),
    Binary.decode_encode (hlt.trans_le h.length_le), hi]

/-- The cubes of a table stand for the numbers of the names. -/
structure Right (store : Store) (table : CodeTable) : Prop where
  nodup : table.names.Nodup
  cubes : store.DenotesEach (fun i a => Binary.decode (table.vars.map a) = i)
    (List.range table.names.length) table.cubes

theorem Right.mono {later : Store} {table : CodeTable} (h : Right store table) (hr : store.Founded)
    (hle : store ≤ later) : Right later table :=
  ⟨h.nodup, h.cubes.mono hr hle⟩

/-- A name is looked up at its own place. -/
theorem exists_lookup {P : Nat → Valuation → Prop} {cubes : List Edge} {first : Nat}
    (h : store.DenotesEach P (List.range' first names.length) cubes) (hname : name ∈ names) :
    ∃ i e, names[i]? = some name ∧ (names.zip cubes).lookup name = some e ∧
      store.Denotes e (P (first + i)) := by
  induction names generalizing first cubes with
  | nil => exact absurd hname (by simp)
  | cons other names ih =>
    rw [List.length_cons, List.range'_succ] at h
    obtain ⟨e, es, he, hes, rfl⟩ := List.forall₂_cons_left_iff.1 h
    rw [List.zip_cons_cons, List.lookup_cons]
    by_cases heq : name = other
    · exact ⟨0, e, by simp [heq], by simp [heq], he⟩
    · obtain ⟨i, found, hi, hfound, hdenotes⟩ :=
        ih hes ((List.mem_cons.1 hname).resolve_left heq)
      refine ⟨i + 1, found, hi, by rw [beq_false_of_ne heq]; exact hfound, ?_⟩
      rwa [Nat.add_comm i, ← Nat.add_assoc]

theorem Right.denotes_cube {table : CodeTable} (h : Right store table)
    (hname : name ∈ table.names) :
    store.Denotes (table.cube name) fun a => chosen table.names table.vars a = some name := by
  have hcubes := h.cubes
  rw [List.range_eq_range'] at hcubes
  obtain ⟨i, e, hi, hlookup, he⟩ := exists_lookup hcubes hname
  rw [cube, hlookup, Option.getD_some]
  refine he.congr fun a => ?_
  rw [chosen, Nat.zero_add]
  constructor
  · rintro rfl
    exact hi
  · intro hchosen
    have hlt : i < table.names.length := (List.getElem?_eq_some_iff.1 hi).1
    exact ((List.getElem?_inj hlt h.nodup).1 (hi.trans hchosen.symm)).symm

section Meaning

variable {sound : Store → Prop} [Store.Soundness sound]

/-- The variables hold the code of some name. -/
theorem ensures_disjAll_cubes {table : CodeTable} (hs : sound store) (h : Right store table) :
    Diagram.EnsuresIn sound (Diagram.disjAll table.cubes) store fun e later =>
      later.Denotes e fun a => (chosen table.names table.vars a).isSome = true := by
  refine (Diagram.ensures_disjAll_each hs h.cubes).weaken fun e later _ _ he => he.congr fun a => ?_
  simp [chosen]

theorem yields_create (hs : sound store) (h : Fits names vars) :
    PlanningGame.Yields sound (create names vars) store fun table later =>
      Right later table ∧ table.names = names ∧ table.vars = vars := by
  have hcode : ∀ i ∈ List.range names.length, ∀ now : Store, sound now → store ≤ now →
      PlanningGame.Yields sound (codeCube vars i) now fun e later =>
        later.Denotes e fun a => Binary.decode (vars.map a) = i := by
    intro i hi now hnow _
    refine (Diagram.ensures_assignmentCube hnow h.vars_nodup h.ne_zero
      (Binary.length_encode _ _)).yields.weaken fun e later _ _ he => he.congr fun a => ?_
    have hlt : i < 2 ^ (vars.map a).length := by
      rw [List.length_map]
      exact (List.mem_range.1 hi).trans_le h.length_le
    rw [Binary.decode_eq_iff hlt, List.length_map]
  unfold create
  apply (yields_mapM hs (fun i e now later hnow hle he => he.mono (founded hnow) hle) hcode).bind
  intro cubes later hlater _ hcubes
  exact yields_pure hlater ⟨⟨h.names_nodup, hcubes⟩, rfl, rfl⟩

end Meaning

theorem needs_create (names : List String) (vars : List Var) :
    Diagram.Needs (create names vars) (names ≠ [] → ∀ v ∈ vars, v ≠ 0) := by
  unfold create
  apply (needs_mapM (p := fun _ => ∀ v ∈ vars, v ≠ 0) fun i _ =>
    Diagram.needs_assignmentCube (Binary.length_encode i _)).bind
  intro cubes hcubes
  refine needs_pure _ fun hne => ?_
  exact hcubes 0 (List.mem_range.2 (List.length_pos_iff.2 hne))

end CodeTable

end PlanningGame
