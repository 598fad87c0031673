import Mathlib
import PlanningGame.UniqueTable

/-!
# Look-up in a unique table

A look-up walks one bucket only. It finds every value whose position was entered into a bucket, and
this survives insertion and the doubling of the buckets. A value stored by `add` alone stands in no
bucket before the next doubling; such values are exempt.
-/
namespace PlanningGame.UniqueTable

variable {α : Type} {hash : α → UInt64} {table : UniqueTable α}

/-- The positions from `start` on of the values that belong into bucket `k` of `count`, newest
first. -/
def positionsIn (hash : α → UInt64) (count k start : Nat) (values : List α) : List Nat :=
  (((values.zipIdx start).filter fun (value, _) => bucketAmong hash count value = k).map
    (·.2)).reverse

theorem positionsIn_cons (count k start : Nat) (value : α) (rest : List α) :
    positionsIn hash count k start (value :: rest) =
      positionsIn hash count k (start + 1) rest ++
        if bucketAmong hash count value = k then [start] else [] := by
  unfold positionsIn
  rw [List.zipIdx_cons, List.filter_cons]
  by_cases h : bucketAmong hash count value = k <;> simp [h]

theorem mem_positionsIn {count k start i : Nat} {values : List α} :
    i ∈ positionsIn hash count k start values ↔
      ∃ value, start ≤ i ∧ values[i - start]? = some value ∧
        bucketAmong hash count value = k := by
  simp only [positionsIn, List.mem_reverse, List.mem_map, List.mem_filter, Prod.exists,
    List.mem_zipIdx_iff_le_and_getElem?_sub, decide_eq_true_eq]
  constructor
  · rintro ⟨value, j, ⟨⟨hj, hv⟩, hk⟩, rfl⟩
    exact ⟨value, hj, hv, hk⟩
  · rintro ⟨value, hj, hv, hk⟩
    exact ⟨value, i, ⟨⟨hj, hv⟩, hk⟩, rfl⟩

@[simp] theorem link_size (start : Nat) (values : List α) (buckets : Array (List Nat)) :
    (link hash start values buckets).size = buckets.size := by
  induction values generalizing start buckets with
  | nil => rfl
  | cons value rest ih => simp [link, ih]

/-- Entering values puts their positions in front of what the bucket held before. -/
theorem link_bucket (start : Nat) (values : List α) (buckets : Array (List Nat)) (k : Nat)
    (hk : k < buckets.size) :
    (link hash start values buckets)[k]?.getD [] =
      positionsIn hash buckets.size k start values ++ buckets[k]?.getD [] := by
  induction values generalizing start buckets with
  | nil => simp [link, positionsIn]
  | cons value rest ih =>
    rw [link, ih _ _ (by simpa using hk), positionsIn_cons, Array.size_modify,
      Array.getElem?_modify, Array.getElem?_eq_getElem hk]
    by_cases h : bucketAmong hash buckets.size value = k <;> simp [h]

theorem bucketAmong_lt {count : Nat} (hc : 0 < count) (value : α) :
    bucketAmong hash count value < count :=
  Nat.mod_lt _ hc

/-- Every value that is not exempt is found in its bucket. -/
structure Indexed (hash : α → UInt64) (exempt : α → Prop) (table : UniqueTable α) : Prop where
  buckets_pos : 0 < table.buckets.size
  mem_chain : ∀ i value, table.value? i = some value → ¬ exempt value →
    i ∈ table.chain hash value

theorem value?_eq_some_iff {i : Nat} {value : α} :
    table.value? i = some value ↔ 0 < i ∧ table.values[i - 1]? = some value := by
  cases i with
  | zero => simp [value?]
  | succ i => simp [value?]

theorem value?_isSome_iff {i : Nat} : (table.value? i).isSome ↔ 0 < i ∧ i ≤ table.size := by
  cases i with
  | zero => simp [value?]
  | succ i => simp [value?, size]

@[simp] theorem insert_values (value : α) :
    (table.insert hash value).values = table.values.push value := rfl

@[simp] theorem grow_values : (table.grow hash).values = table.values := rfl

@[simp] theorem insert_size (value : α) : (table.insert hash value).size = table.size + 1 := by
  simp [size]

@[simp] theorem grow_size : (table.grow hash).size = table.size := rfl

theorem value?_push {values : Array α} {buckets : Array (List Nat)} (value : α) (i : Nat) :
    (⟨values.push value, buckets⟩ : UniqueTable α).value? i =
      if i = values.size + 1 then some value else (⟨values, buckets⟩ : UniqueTable α).value? i := by
  cases i with
  | zero => simp [value?]
  | succ i => simp [value?, Array.getElem?_push]

theorem insert_value? (value : α) (i : Nat) :
    (table.insert hash value).value? i =
      if i = table.size + 1 then some value else table.value? i := by
  obtain ⟨values, buckets⟩ := table
  exact value?_push value i

@[simp] theorem grow_value? (i : Nat) : (table.grow hash).value? i = table.value? i := by
  cases i <;> rfl

/-- A new position heads the bucket of its value; the other buckets stay. -/
theorem chain_insert (hpos : 0 < table.buckets.size) (value kept : α) :
    (table.insert hash value).chain hash kept =
      if bucketAmong hash table.buckets.size value = bucketAmong hash table.buckets.size kept then
        (table.size + 1) :: table.chain hash kept
      else table.chain hash kept := by
  obtain ⟨values, buckets⟩ := table
  have hlt : bucketAmong hash buckets.size kept < buckets.size := bucketAmong_lt hpos kept
  simp only [chain, UniqueTable.insert, Array.size_modify, Array.getElem?_modify,
    Array.getElem?_eq_getElem hlt]
  split <;> simp [size]

theorem mem_chain_insert (hpos : 0 < table.buckets.size) (value : α) :
    table.size + 1 ∈ (table.insert hash value).chain hash value := by
  simp [chain_insert hpos]

theorem mem_chain_insert_of_mem (hpos : 0 < table.buckets.size) {value kept : α} {i : Nat}
    (hi : i ∈ table.chain hash kept) : i ∈ (table.insert hash value).chain hash kept := by
  rw [chain_insert hpos]
  split
  · exact List.mem_cons_of_mem _ hi
  · exact hi

/-- After the buckets are doubled, every position is in the bucket of its value. -/
theorem mem_chain_grow (hpos : 0 < table.buckets.size) {value : α} {i : Nat}
    (hi : table.value? i = some value) : i ∈ (table.grow hash).chain hash value := by
  obtain ⟨hi0, hget⟩ := value?_eq_some_iff.1 hi
  have hsize : (table.grow hash).buckets.size = 2 * table.buckets.size := by
    simp [UniqueTable.grow]
  have hlt : bucketAmong hash (2 * table.buckets.size) value < 2 * table.buckets.size :=
    bucketAmong_lt (by omega) value
  rw [chain, hsize]
  simp only [UniqueTable.grow]
  rw [link_bucket _ _ _ _ (by simpa using hlt)]
  refine List.mem_append_left _ (mem_positionsIn.2 ⟨value, hi0, ?_, by simp⟩)
  simpa using hget

theorem Indexed.insert {exempt : α → Prop} (h : Indexed hash exempt table) (value : α) :
    Indexed hash exempt (table.insert hash value) := by
  refine ⟨by simpa [UniqueTable.insert] using h.buckets_pos, fun i kept hi hkept => ?_⟩
  rw [insert_value?] at hi
  split at hi
  case isTrue hnew =>
    obtain rfl := Option.some.inj hi
    exact hnew ▸ mem_chain_insert h.buckets_pos value
  case isFalse => exact mem_chain_insert_of_mem h.buckets_pos (h.mem_chain i kept hi hkept)

theorem Indexed.grow {exempt : α → Prop} (h : Indexed hash exempt table) :
    Indexed hash exempt (table.grow hash) := by
  refine ⟨?_, fun i value hi _ => mem_chain_grow h.buckets_pos (by simpa using hi)⟩
  have := h.buckets_pos
  simp only [UniqueTable.grow, link_size, Array.size_replicate]
  omega

variable [DecidableEq α]

theorem value?_of_find? {value : α} {i : Nat} (h : table.find? hash value = some i) :
    table.value? i = some value := by
  simpa using List.find?_some h

theorem Indexed.not_mem_of_find? {exempt : α → Prop} (h : Indexed hash exempt table) {value : α}
    (hvalue : ¬ exempt value) (hfind : table.find? hash value = none) (i : Nat) :
    table.value? i ≠ some value := by
  intro hi
  have := List.find?_eq_none.1 hfind i (h.mem_chain i value hi hvalue)
  simp [hi] at this

end PlanningGame.UniqueTable
