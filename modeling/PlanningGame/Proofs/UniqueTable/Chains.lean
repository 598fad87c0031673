import PlanningGame.Proofs.UniqueTable

/-!
# The chains of a unique table

Each bucket is walked from its newest position to its oldest, so positions decrease along a chain
and every walk ends. A position stands in one chain at most, the one its value belongs to. Storing
a value with or without entering it and entering all values anew keep this.

Only `put` looks at how crowded the buckets are. As long as no other operation stores values, there
are at most two of them to a bucket.
-/
namespace PlanningGame.UniqueTable

variable {α : Type} {hash : α → UInt64} {table : UniqueTable α}

/-- The chains are in order: they hold positions of their own bucket only, newest first. The number
of buckets is a power of two, so a bucket is given by the lowest bits of a hash. -/
structure Chained (hash : α → UInt64) (table : UniqueTable α) : Prop where
  exists_bits : ∃ bits, table.buckets.size = 2 ^ bits
  newest_first : ∀ (k : Nat) (chain : List Nat), table.buckets[k]? = some chain →
    chain.Pairwise (· > ·)
  belongs : ∀ (k : Nat) (chain : List Nat), table.buckets[k]? = some chain → ∀ i ∈ chain, ∃ value,
    table.value? i = some value ∧ bucketAmong hash table.buckets.size value = k

theorem Chained.buckets_pos (h : Chained hash table) : 0 < table.buckets.size := by
  obtain ⟨bits, hbits⟩ := h.exists_bits
  rw [hbits]
  exact Nat.two_pow_pos bits

/-! ### A new table -/

theorem buckets_of_ofBits? {bits : Nat} (h : ofBits? bits = some table) :
    table = ⟨#[], Array.replicate (2 ^ min bits maxInitialBits) []⟩ := by
  unfold ofBits? at h
  split at h
  · exact (Option.some.inj h).symm
  · cases h

theorem chained_of_ofBits? {bits : Nat} (h : ofBits? bits = some table) :
    Chained hash table := by
  obtain rfl := buckets_of_ofBits? h
  refine ⟨⟨_, Array.size_replicate⟩, ?_, ?_⟩
  all_goals
    intro k chain hk
    obtain ⟨-, rfl⟩ : k < _ ∧ [] = chain := by simpa [Array.getElem?_replicate] using hk
    simp

/-! ### What one step does to the chains -/

theorem value?_add_of_some {value kept : α} {i : Nat} (h : table.value? i = some kept) :
    (table.add value).2.value? i = some kept := by
  obtain ⟨values, buckets⟩ := table
  obtain ⟨-, hi⟩ := value?_isSome_iff.1 (Option.isSome_of_eq_some h)
  have hi : i ≠ values.size + 1 := by simp only [size] at hi; omega
  simpa [add, value?_push, hi] using h

theorem value?_insert_of_some {value kept : α} {i : Nat} (h : table.value? i = some kept) :
    (table.insert hash value).value? i = some kept := by
  obtain ⟨-, hi⟩ := value?_isSome_iff.1 (Option.isSome_of_eq_some h)
  rw [insert_value?, if_neg (by omega), h]

theorem Chained.add (h : Chained hash table) (value : α) : Chained hash (table.add value).2 := by
  refine ⟨h.exists_bits, h.newest_first, fun k chain hk i hi => ?_⟩
  obtain ⟨kept, hkept, hbucket⟩ := h.belongs k chain hk i hi
  exact ⟨kept, value?_add_of_some hkept, hbucket⟩

@[simp] theorem insert_buckets_size (value : α) :
    (table.insert hash value).buckets.size = table.buckets.size := by
  simp [insert]

/-- After an insertion a bucket is the one it was, or it has the new position at its head. -/
theorem insert_bucket {value : α} {k : Nat} {chain : List Nat}
    (h : (table.insert hash value).buckets[k]? = some chain) :
    table.buckets[k]? = some chain ∨
      ∃ rest, table.buckets[k]? = some rest ∧ chain = (table.size + 1) :: rest ∧
        bucketAmong hash table.buckets.size value = k := by
  obtain ⟨values, buckets⟩ := table
  simp only [insert, Array.getElem?_modify] at h
  split at h
  case isTrue hk =>
    obtain ⟨rest, hrest, rfl⟩ := Option.map_eq_some_iff.1 h
    exact .inr ⟨rest, hrest, rfl, hk⟩
  case isFalse => exact .inl h

theorem Chained.insert (h : Chained hash table) (value : α) :
    Chained hash (table.insert hash value) := by
  refine ⟨by simpa using h.exists_bits, fun k chain hk => ?_, fun k chain hk i hi => ?_⟩
  · obtain hk | ⟨rest, hrest, rfl, -⟩ := insert_bucket hk
    · exact h.newest_first k chain hk
    · refine List.pairwise_cons.2 ⟨fun i hi => ?_, h.newest_first k rest hrest⟩
      obtain ⟨kept, hkept, -⟩ := h.belongs k rest hrest i hi
      obtain ⟨-, hle⟩ := value?_isSome_iff.1 (Option.isSome_of_eq_some hkept)
      exact Nat.lt_succ_of_le hle
  · have old : ∀ rest, table.buckets[k]? = some rest → i ∈ rest → ∃ kept,
        (table.insert hash value).value? i = some kept ∧
          bucketAmong hash (table.insert hash value).buckets.size kept = k := by
      intro rest hrest hi
      obtain ⟨kept, hkept, hbucket⟩ := h.belongs k rest hrest i hi
      exact ⟨kept, value?_insert_of_some hkept, by simpa using hbucket⟩
    obtain hk | ⟨rest, hrest, rfl, hbucket⟩ := insert_bucket hk
    · exact old chain hk hi
    · obtain rfl | hi := List.mem_cons.1 hi
      · exact ⟨value, by simp [insert_value?], by simpa using hbucket⟩
      · exact old rest hrest hi

theorem pairwise_positionsIn (count k start : Nat) (values : List α) :
    (positionsIn hash count k start values).Pairwise (· > ·) := by
  have hsub := (List.filter_sublist
    (p := fun entry : α × Nat => decide (bucketAmong hash count entry.1 = k))
    (l := values.zipIdx start)).map (·.2)
  rw [List.zipIdx_map_snd] at hsub
  exact List.pairwise_reverse.2 (List.Pairwise.sublist hsub List.pairwise_lt_range')

@[simp] theorem grow_buckets_size : (table.grow hash).buckets.size = 2 * table.buckets.size := by
  simp [grow]

/-- Entered anew, a bucket holds the positions of all values that belong to it. -/
theorem grow_bucket {k : Nat} {chain : List Nat} (h : (table.grow hash).buckets[k]? = some chain) :
    chain = positionsIn hash (2 * table.buckets.size) k 1 table.values.toList := by
  have hk : k < 2 * table.buckets.size := by
    simpa using (Array.getElem?_eq_some_iff.1 h).1
  have hlink := @link_bucket α hash 1 table.values.toList
    (Array.replicate (2 * table.buckets.size) []) k (by simpa using hk)
  change (table.grow hash).buckets[k]?.getD [] = _ at hlink
  rw [h, Option.getD_some] at hlink
  simpa [hk] using hlink

theorem Chained.grow (h : Chained hash table) : Chained hash (table.grow hash) := by
  obtain ⟨bits, hbits⟩ := h.exists_bits
  refine ⟨⟨bits + 1, by rw [grow_buckets_size, hbits, pow_succ']⟩, fun k chain hk => ?_,
    fun k chain hk i hi => ?_⟩
  · rw [grow_bucket hk]
    exact pairwise_positionsIn ..
  · rw [grow_bucket hk] at hi
    obtain ⟨value, hpos, hget, hbucket⟩ := mem_positionsIn.1 hi
    refine ⟨value, ?_, by simpa using hbucket⟩
    rw [grow_value?]
    exact value?_eq_some_iff.2 ⟨hpos, by simpa using hget⟩

section Put

variable [DecidableEq α]

theorem put_of_find?_eq_some {value : α} {i : Nat} (h : table.find? hash value = some i) :
    table.put hash value = (i, table) := by
  simp only [put, h]

theorem put_of_find?_eq_none {value : α} (h : table.find? hash value = none) :
    table.put hash value = (table.size + 1,
      if (table.insert hash value).isCrowded then (table.insert hash value).grow hash
      else table.insert hash value) := by
  simp only [put, h, insert_size]

/-- A put keeps what an insertion of a value that is not found and the doubling of the buckets
keep. -/
theorem put_keeps {P : UniqueTable α → Prop} {value : α} (h : P table)
    (hinsert : table.find? hash value = none → P (table.insert hash value))
    (hgrow : P (table.insert hash value) → P ((table.insert hash value).grow hash)) :
    P (table.put hash value).2 := by
  cases hfind : table.find? hash value with
  | some i => rwa [put_of_find?_eq_some hfind]
  | none =>
    rw [put_of_find?_eq_none hfind]
    dsimp only
    split
    · exact hgrow (hinsert hfind)
    · exact hinsert hfind

theorem Chained.put (h : Chained hash table) (value : α) : Chained hash (table.put hash value).2 :=
  put_keeps h (fun _ => h.insert value) Chained.grow

/-- Buckets are doubled when a value is stored that makes them crowded, which restores the load. -/
theorem put_load (h : table.size ≤ 2 * table.buckets.size) (hpos : 0 < table.buckets.size)
    (value : α) :
    (table.put hash value).2.size ≤ 2 * (table.put hash value).2.buckets.size := by
  cases hfind : table.find? hash value with
  | some i => rwa [put_of_find?_eq_some hfind]
  | none =>
    rw [put_of_find?_eq_none hfind]
    dsimp only
    split
    case isTrue =>
      simp only [grow_size, insert_size, grow_buckets_size, insert_buckets_size]
      omega
    case isFalse hcrowded => simpa [isCrowded] using hcrowded

/-- The position answered is in the bucket of the value. -/
theorem mem_chain_put (hpos : 0 < table.buckets.size) (value : α) :
    (table.put hash value).1 ∈ (table.put hash value).2.chain hash value := by
  cases hfind : table.find? hash value with
  | some i =>
    rw [put_of_find?_eq_some hfind]
    exact List.mem_of_find?_eq_some hfind
  | none =>
    rw [put_of_find?_eq_none hfind]
    dsimp only
    split
    · exact mem_chain_grow (by simpa using hpos) (by simp [insert_value?])
    · exact mem_chain_insert hpos value

theorem mem_chain_put_of_mem (hpos : 0 < table.buckets.size) {value kept : α} {i : Nat}
    (hkept : table.value? i = some kept) (hi : i ∈ table.chain hash kept) :
    i ∈ (table.put hash value).2.chain hash kept :=
  put_keeps (P := fun table => i ∈ table.chain hash kept) hi
    (fun _ => mem_chain_insert_of_mem hpos hi)
    (fun _ => mem_chain_grow (by simpa using hpos) (value?_insert_of_some hkept))

theorem le_of_find?_eq_some {chain : List Nat} (h : chain.Pairwise (· > ·)) {p : Nat → Bool}
    {i j : Nat} (hfind : chain.find? p = some j) (hi : i ∈ chain) (hp : p i) : i ≤ j := by
  induction chain with
  | nil => cases hi
  | cons k rest ih =>
    obtain ⟨hk, hrest⟩ := List.pairwise_cons.1 h
    rw [List.find?_cons] at hfind
    split at hfind
    case h_1 =>
      obtain rfl := Option.some.inj hfind
      obtain rfl | hi := List.mem_cons.1 hi
      · exact le_rfl
      · exact (hk i hi).le
    case h_2 hpk =>
      obtain rfl | hi := List.mem_cons.1 hi
      · rw [hp] at hpk
        cases hpk
      · exact ih hrest hfind hi

/-- The newest position of a value, once it is in a bucket, is what a put of the value answers. -/
theorem Chained.put_eq (h : Chained hash table) {value : α} {i : Nat}
    (hvalue : table.value? i = some value) (hi : i ∈ table.chain hash value)
    (hnewest : ∀ j, i < j → table.value? j ≠ some value) : table.put hash value = (i, table) := by
  have hlt : bucketAmong hash table.buckets.size value < table.buckets.size :=
    bucketAmong_lt h.buckets_pos value
  have hchain : (table.chain hash value).Pairwise (· > ·) := by
    rw [chain, Array.getElem?_eq_getElem hlt, Option.getD_some]
    exact h.newest_first _ _ (Array.getElem?_eq_getElem hlt)
  cases hfind : table.find? hash value with
  | none => exact absurd hvalue (by simpa using List.find?_eq_none.1 hfind i hi)
  | some j =>
    have hle : i ≤ j := le_of_find?_eq_some hchain hfind hi (by simpa using hvalue)
    have hge : ¬ i < j := fun hlt => hnewest j hlt (value?_of_find? hfind)
    rw [put_of_find?_eq_some hfind, Nat.le_antisymm hle (Nat.not_lt.1 hge)]

end Put

/-! ### Walks along a chain -/

/-- Decreasing positions are walked one after the other, and from the last to zero. -/
theorem isChain_successorIn {chain : List Nat} (h : (chain ++ [0]).Pairwise (· > ·)) :
    (chain ++ [0]).IsChain fun i j => j < i ∧ successorIn i chain = j := by
  induction chain with
  | nil => simp
  | cons i rest ih =>
    obtain ⟨hi, hrest⟩ := List.pairwise_cons.1 h
    cases rest with
    | nil => simpa [successorIn] using hi
    | cons j rest =>
      refine List.isChain_cons_cons.2 ⟨⟨hi j (by simp), by simp [successorIn]⟩, ?_⟩
      refine (ih hrest).imp_of_mem_imp fun a b ha _ hab => ⟨hab.1, ?_⟩
      rw [successorIn, if_neg (hi a ha).ne', hab.2]

theorem Chained.pairwise_append_zero (h : Chained hash table) {k : Nat} {chain : List Nat}
    (hk : table.buckets[k]? = some chain) : (chain ++ [0]).Pairwise (· > ·) := by
  refine List.pairwise_append.2 ⟨h.newest_first k chain hk, List.pairwise_singleton _ _, ?_⟩
  intro i hi j hj
  obtain ⟨value, hvalue, -⟩ := h.belongs k chain hk i hi
  rw [List.mem_singleton.1 hj]
  exact (value?_eq_some_iff.1 hvalue).1

/-- Walking a chain from its head visits its positions in order and ends at zero. -/
theorem Chained.isChain_next? (h : Chained hash table) {k : Nat} {chain : List Nat}
    (hk : table.buckets[k]? = some chain) :
    (chain ++ [0]).IsChain fun i j => table.next? hash i = some j := by
  have hwalk := isChain_successorIn (h.pairwise_append_zero hk)
  refine hwalk.imp_of_mem_imp fun i j hi _ ⟨hlt, hij⟩ => ?_
  have hi : i ∈ chain := by simpa [Nat.ne_zero_of_lt hlt] using hi
  obtain ⟨value, hvalue, hbucket⟩ := h.belongs k chain hk i hi
  rw [next?, hvalue, Option.map_some, UniqueTable.chain, hbucket, hk, Option.getD_some, hij]

theorem successorIn_lt {chain : List Nat} (h : (chain ++ [0]).Pairwise (· > ·)) {i : Nat}
    (hi : 0 < i) : successorIn i chain < i := by
  induction chain with
  | nil => simpa [successorIn] using hi
  | cons j rest ih =>
    obtain ⟨hj, hrest⟩ := List.pairwise_cons.1 h
    cases rest with
    | nil => simpa [successorIn] using hi
    | cons k rest =>
      rw [successorIn]
      split
      case isTrue hji => exact hji ▸ hj k (by simp)
      case isFalse => exact ih hrest

/-- No walk comes back: the next position is a smaller one, also of a value in no chain. -/
theorem Chained.next?_lt (h : Chained hash table) {i j : Nat} (hij : table.next? hash i = some j) :
    j < i := by
  obtain ⟨value, hvalue, rfl⟩ := Option.map_eq_some_iff.1 hij
  have hbucket : bucketAmong hash table.buckets.size value < table.buckets.size :=
    bucketAmong_lt h.buckets_pos value
  refine successorIn_lt ?_ (value?_eq_some_iff.1 hvalue).1
  rw [chain, Array.getElem?_eq_getElem hbucket, Option.getD_some]
  exact h.pairwise_append_zero (Array.getElem?_eq_getElem hbucket)

theorem mem_flatten_of_mem_chain {value : α} {i : Nat} (h : i ∈ table.chain hash value) :
    i ∈ table.buckets.toList.flatten := by
  unfold chain at h
  cases hbucket : table.buckets[bucketAmong hash table.buckets.size value]? with
  | none => simp [hbucket] at h
  | some chain =>
    rw [hbucket, Option.getD_some] at h
    exact List.mem_flatten.2 ⟨chain, List.mem_of_getElem? (by simpa using hbucket), h⟩

/-- A position stands in one chain at most, and there once. -/
theorem Chained.nodup_flatten (h : Chained hash table) : table.buckets.toList.flatten.Nodup := by
  refine List.nodup_flatten.2 ⟨fun chain hchain => ?_, ?_⟩
  · obtain ⟨k, hk⟩ := List.mem_iff_getElem?.1 hchain
    rw [Array.getElem?_toList] at hk
    exact (h.newest_first k chain hk).imp fun hlt => hlt.ne'
  · refine List.pairwise_iff_getElem.2 fun k l hk hl hkl => ?_
    rw [List.disjoint_left]
    intro i hik hil
    obtain ⟨value, hvalue, rfl⟩ := h.belongs k _ (Array.getElem?_eq_getElem hk) i hik
    obtain ⟨other, hother, rfl⟩ := h.belongs l _ (Array.getElem?_eq_getElem hl) i hil
    rw [hvalue] at hother
    obtain rfl := Option.some.inj hother
    exact hkl.ne rfl

end PlanningGame.UniqueTable
