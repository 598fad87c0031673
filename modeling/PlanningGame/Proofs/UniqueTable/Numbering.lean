import PlanningGame.Proofs.UniqueTable.Chains

/-!
# The positions that a unique table answers

Values come into a table in two ways: they are put, which shares a position between equal values,
or they are added without being looked up. A value that was never added stands at one position at
most and is found there whenever it is put. So positions count the values in order of first
insertion, whatever the hash function and the number of buckets.

A value that was added stands in no bucket until the buckets are doubled. Which of several equal
values a later put finds then depends on the number of buckets.
-/
namespace PlanningGame.UniqueTable

variable {α : Type} {hash : α → UInt64} {table : UniqueTable α}

/-- One entry into a table. -/
inductive Entry (α : Type) where
  /-- A value that is stored if no equal one is found. -/
  | put (value : α)
  /-- A value that is stored without being looked up. -/
  | add (value : α)
deriving DecidableEq

/-- The value of an entry. -/
def Entry.value : Entry α → α
  | put value => value
  | add value => value

/-! ### Values that are not exempt -/

/-- A value that is not exempt stands at one position at most, and in its bucket. -/
structure Numbers (hash : α → UInt64) (exempt : α → Prop) (table : UniqueTable α) : Prop where
  indexed : Indexed hash exempt table
  unique : ∀ i j value, ¬ exempt value → table.value? i = some value →
    table.value? j = some value → i = j

theorem numbers_of_ofBits? {exempt : α → Prop} {bits : Nat} (h : ofBits? bits = some table) :
    Numbers hash exempt table := by
  have hchained : Chained hash table := chained_of_ofBits? h
  have hpos := hchained.buckets_pos
  obtain rfl := buckets_of_ofBits? h
  have hnone : ∀ i (value : α), (⟨#[], Array.replicate (2 ^ min bits maxInitialBits) []⟩ :
      UniqueTable α).value? i ≠ some value := by
    intro i value hi
    simpa using (value?_eq_some_iff.1 hi).2
  exact ⟨⟨hpos, fun i value hi => absurd hi (hnone i value)⟩,
    fun i _ value _ hi => absurd hi (hnone i value)⟩

namespace Numbers

variable {exempt : α → Prop}

theorem mono {more : α → Prop} (h : Numbers hash exempt table)
    (hmore : ∀ value, exempt value → more value) : Numbers hash more table where
  indexed := ⟨h.indexed.buckets_pos, fun i value hi hvalue =>
    h.indexed.mem_chain i value hi fun hexempt => hvalue (hmore value hexempt)⟩
  unique := fun i j value hvalue =>
    h.unique i j value fun hexempt => hvalue (hmore value hexempt)

theorem add (h : Numbers hash exempt table) {value : α} (hvalue : exempt value) :
    Numbers hash exempt (table.add value).2 := by
  obtain ⟨values, buckets⟩ := table
  have old : ∀ i kept, ¬ exempt kept →
      (UniqueTable.add ⟨values, buckets⟩ value).2.value? i = some kept →
      (⟨values, buckets⟩ : UniqueTable α).value? i = some kept := by
    intro i kept hkept hi
    simp only [UniqueTable.add, value?_push] at hi
    split at hi
    · exact absurd (Option.some.inj hi ▸ hvalue) hkept
    · exact hi
  exact ⟨⟨h.indexed.buckets_pos, fun i kept hi hkept =>
      h.indexed.mem_chain i kept (old i kept hkept hi) hkept⟩,
    fun i j kept hkept hi hj => h.unique i j kept hkept (old i kept hkept hi) (old j kept hkept hj)⟩

theorem grow (h : Numbers hash exempt table) : Numbers hash exempt (table.grow hash) := by
  refine ⟨h.indexed.grow, fun i j kept hkept hi hj => ?_⟩
  rw [grow_value?] at hi hj
  exact h.unique i j kept hkept hi hj

variable [DecidableEq α]

theorem insert (h : Numbers hash exempt table) {value : α}
    (hfind : table.find? hash value = none) : Numbers hash exempt (table.insert hash value) := by
  have hnew : ¬ exempt value → ∀ i, table.value? i ≠ some value :=
    fun hvalue i => h.indexed.not_mem_of_find? hvalue hfind i
  refine ⟨h.indexed.insert value, fun i j kept hkept hi hj => ?_⟩
  rw [insert_value?] at hi hj
  split at hi <;> split at hj
  case isTrue.isTrue hi' hj' => rw [hi', hj']
  case isTrue.isFalse =>
    obtain rfl := Option.some.inj hi
    exact absurd hj (hnew hkept j)
  case isFalse.isTrue =>
    obtain rfl := Option.some.inj hj
    exact absurd hi (hnew hkept i)
  case isFalse.isFalse => exact h.unique i j kept hkept hi hj

/-- A value that is not exempt is found at its position. -/
theorem put_eq (h : Numbers hash exempt table) {value : α} {i : Nat} (hvalue : ¬ exempt value)
    (hi : table.value? i = some value) : table.put hash value = (i, table) := by
  cases hfind : table.find? hash value with
  | some j =>
    rw [put_of_find?_eq_some hfind, h.unique j i value hvalue (value?_of_find? hfind) hi]
  | none => exact absurd hi (h.indexed.not_mem_of_find? hvalue hfind i)

end Numbers

theorem eq_map_of_forall₂ {R : α → Nat → Prop} {f : α → Nat} {values : List α}
    {positions : List Nat} (h : List.Forall₂ R values positions)
    (hf : ∀ value ∈ values, ∀ i, R value i → i = f value) : positions = values.map f := by
  induction h with
  | nil => rfl
  | cons hvalue _ ih =>
    rw [List.map_cons, ← hf _ (by simp) _ hvalue,
      ih fun value hmem => hf value (List.mem_cons_of_mem _ hmem)]

theorem rel_of_getElem? {β : Type} {R : α → β → Prop} {xs : List α} {ys : List β}
    (h : List.Forall₂ R xs ys) {k : Nat} {x : α} {y : β} (hx : xs[k]? = some x)
    (hy : ys[k]? = some y) : R x y := by
  obtain ⟨hk, rfl⟩ := List.getElem?_eq_some_iff.1 hx
  obtain ⟨hk', rfl⟩ := List.getElem?_eq_some_iff.1 hy
  exact h.get hk hk'

variable [DecidableEq α]

/-! ### Entries one after the other -/

/-- Make an entry. -/
def enter (hash : α → UInt64) (table : UniqueTable α) : Entry α → Nat × UniqueTable α
  | .put value => table.put hash value
  | .add value => table.add value

/-- Make entries one after the other: the positions answered, and the table after them. -/
def enterAll (hash : α → UInt64) (table : UniqueTable α) :
    List (Entry α) → List Nat × UniqueTable α
  | [] => ([], table)
  | entry :: rest =>
    let (position, next) := table.enter hash entry
    let (positions, last) := next.enterAll hash rest
    (position :: positions, last)

theorem enterAll_cons (entry : Entry α) (rest : List (Entry α)) :
    table.enterAll hash (entry :: rest) =
      ((table.enter hash entry).1 :: ((table.enter hash entry).2.enterAll hash rest).1,
        ((table.enter hash entry).2.enterAll hash rest).2) := rfl

theorem enterAll_append (entries more : List (Entry α)) :
    table.enterAll hash (entries ++ more) =
      ((table.enterAll hash entries).1 ++ ((table.enterAll hash entries).2.enterAll hash more).1,
        ((table.enterAll hash entries).2.enterAll hash more).2) := by
  induction entries generalizing table with
  | nil => rfl
  | cons entry rest ih => simp only [List.cons_append, enterAll_cons, ih]

/-- What each entry keeps is kept by a sequence of them. -/
theorem enterAll_keeps {P : UniqueTable α → Prop} {entries : List (Entry α)} (h : P table)
    (hstep : ∀ entry ∈ entries, ∀ table, P table → P (table.enter hash entry).2) :
    P (table.enterAll hash entries).2 := by
  induction entries generalizing table with
  | nil => exact h
  | cons entry rest ih =>
    exact ih (hstep entry (by simp) table h) fun entry hentry =>
      hstep entry (List.mem_cons_of_mem _ hentry)

/-- A value stays at its position. -/
theorem value?_enter_of_some {entry : Entry α} {kept : α} {i : Nat}
    (h : table.value? i = some kept) : (table.enter hash entry).2.value? i = some kept := by
  cases entry with
  | add value => exact value?_add_of_some h
  | put value =>
    exact put_keeps (P := fun table => table.value? i = some kept) h
      (fun _ => value?_insert_of_some h) (fun h => (grow_value? i).trans h)

theorem value?_enterAll_of_some {entries : List (Entry α)} {kept : α} {i : Nat}
    (h : table.value? i = some kept) : (table.enterAll hash entries).2.value? i = some kept :=
  enterAll_keeps (P := fun table => table.value? i = some kept) h
    fun _ _ _ => value?_enter_of_some

/-- The position answered holds the value of the entry. -/
theorem value?_enter_fst (entry : Entry α) :
    (table.enter hash entry).2.value? (table.enter hash entry).1 = some entry.value := by
  cases entry with
  | add value =>
    obtain ⟨values, buckets⟩ := table
    exact (value?_push value _).trans (if_pos rfl)
  | put value =>
    rw [enter]
    cases hfind : table.find? hash value with
    | some i =>
      rw [put_of_find?_eq_some hfind]
      exact value?_of_find? hfind
    | none =>
      have hnew : (table.insert hash value).value? (table.size + 1) = some value := by
        simp [insert_value?]
      rw [put_of_find?_eq_none hfind]
      dsimp only
      split
      · rwa [grow_value?]
      · exact hnew

theorem forall₂_value?_enterAll (entries : List (Entry α)) :
    List.Forall₂ (fun entry i => (table.enterAll hash entries).2.value? i = some entry.value)
      entries (table.enterAll hash entries).1 := by
  induction entries generalizing table with
  | nil => exact .nil
  | cons entry rest ih =>
    rw [enterAll_cons]
    exact .cons (value?_enterAll_of_some (value?_enter_fst entry)) ih

theorem length_enterAll (entries : List (Entry α)) :
    (table.enterAll hash entries).1.length = entries.length :=
  (forall₂_value?_enterAll entries).length_eq.symm

theorem Chained.enter (h : Chained hash table) (entry : Entry α) :
    Chained hash (table.enter hash entry).2 := by
  cases entry with
  | put value => exact h.put value
  | add value => exact h.add value

theorem Numbers.enter {exempt : α → Prop} (h : Numbers hash exempt table) {entry : Entry α}
    (hentry : ∀ value, entry = .add value → exempt value) :
    Numbers hash exempt (table.enter hash entry).2 := by
  cases entry with
  | add value => exact h.add (hentry value rfl)
  | put value => exact put_keeps h h.insert Numbers.grow

/-! ### Positions in a list of values -/

/-- The position of an entry in a list of values, if equal values are found anywhere in it. -/
def Entry.position (values : List α) : Entry α → Nat
  | put value => values.idxOf value + 1
  | add _ => values.length + 1

/-- The list of values after an entry. -/
def Entry.extend (values : List α) : Entry α → List α
  | put value => if value ∈ values then values else values ++ [value]
  | add value => values ++ [value]

/-- The positions of entries one after the other. -/
def positionsOf (values : List α) : List (Entry α) → List Nat
  | [] => []
  | entry :: rest => entry.position values :: positionsOf (entry.extend values) rest

theorem value?_idxOf {value : α} (h : value ∈ table.values.toList) :
    table.value? (table.values.toList.idxOf value + 1) = some value := by
  rw [value?, ← Array.getElem?_toList, List.getElem?_idxOf h]

/-- An entry that puts no exempt value is answered as if the whole list of values were searched. -/
theorem Numbers.enter_eq {exempt : α → Prop} (h : Numbers hash exempt table) {entry : Entry α}
    (hentry : ∀ value, entry = .put value → ¬ exempt value) :
    (table.enter hash entry).1 = entry.position table.values.toList ∧
      (table.enter hash entry).2.values.toList = entry.extend table.values.toList := by
  cases entry with
  | add value => simp [UniqueTable.enter, UniqueTable.add, Entry.position, Entry.extend, size]
  | put value =>
    by_cases hmem : value ∈ table.values.toList
    · simp only [UniqueTable.enter, h.put_eq (hentry value rfl) (value?_idxOf hmem),
        Entry.position, Entry.extend, if_pos hmem, and_self]
    · have hfind : table.find? hash value = none := by
        cases hfind : table.find? hash value with
        | none => rfl
        | some i =>
          have hi := (value?_eq_some_iff.1 (value?_of_find? hfind)).2
          rw [← Array.getElem?_toList] at hi
          exact absurd (List.mem_of_getElem? hi) hmem
      have hvalues : (table.put hash value).2.values = table.values.push value := by
        rw [put_of_find?_eq_none hfind]
        dsimp only
        split <;> simp
      constructor
      · rw [UniqueTable.enter, put_of_find?_eq_none hfind, Entry.position,
          List.idxOf_eq_length_iff.2 hmem, size, Array.length_toList]
      · rw [UniqueTable.enter, hvalues, Entry.extend, if_neg hmem, Array.toList_push]

/-- As long as no value is put that was added before, neither the hash function nor the buckets
show in the positions. -/
theorem Numbers.enterAll_eq {exempt : α → Prop} {entries : List (Entry α)}
    (h : Numbers hash exempt table) (hput : ∀ value, .put value ∈ entries → ¬ exempt value)
    (hlater : entries.Pairwise fun entry later => ∀ value, entry = .add value →
      later ≠ .put value) :
    (table.enterAll hash entries).1 = positionsOf table.values.toList entries ∧
      (table.enterAll hash entries).2.values.toList =
        entries.foldl Entry.extend table.values.toList := by
  -- an added value becomes exempt, which the remaining entries do not put
  induction entries generalizing exempt table with
  | nil => exact ⟨rfl, rfl⟩
  | cons entry rest ih =>
    obtain ⟨hfirst, hrest⟩ := List.pairwise_cons.1 hlater
    have hnow : ∀ value, entry = .put value → ¬ exempt value :=
      fun value hentry => hput value (by simp [hentry])
    obtain ⟨hposition, hvalues⟩ := h.enter_eq hnow
    have hnext : Numbers hash (fun value => exempt value ∨ entry = .add value)
        (table.enter hash entry).2 :=
      (h.mono fun _ => Or.inl).enter fun _ => Or.inr
    obtain ⟨hpositions, hlast⟩ := ih hnext
      (fun value hmem hexempt => hexempt.elim (hput value (List.mem_cons_of_mem _ hmem))
        fun hadd => hfirst _ hmem value hadd rfl) hrest
    rw [enterAll_cons]
    constructor
    · rw [hpositions, hvalues, hposition, positionsOf]
    · rw [hlast, hvalues, List.foldl_cons]

/-! ### A table filled by puts -/

theorem eraseDups_append_singleton (values : List α) (value : α) :
    (values ++ [value]).eraseDups =
      if value ∈ values then values.eraseDups else values.eraseDups ++ [value] := by
  rw [List.eraseDups_append]
  by_cases h : value ∈ values <;> simp [List.removeAll, h, List.eraseDups_cons]

theorem nodup_eraseDups (values : List α) : values.eraseDups.Nodup := by
  induction values using List.reverseRecOn with
  | nil => simp
  | append_singleton values value ih =>
    rw [eraseDups_append_singleton]
    split
    case isTrue => exact ih
    case isFalse h =>
      simpa [List.nodup_append, ih] using fun kept hkept => ne_of_mem_of_not_mem hkept h

theorem length_eraseDups (values : List α) : values.eraseDups.length = values.toFinset.card := by
  rw [← List.toFinset_card_of_nodup (nodup_eraseDups values)]
  congr 1
  ext value
  simp

theorem foldl_extend_puts {values seen : List α} (h : ∀ value ∈ values, value ∉ seen) :
    (values.map Entry.put).foldl Entry.extend seen = seen ++ values.eraseDups := by
  induction values using List.reverseRecOn with
  | nil => simp
  | append_singleton values value ih =>
    have hvalue : value ∉ seen := h value (by simp)
    rw [List.map_append, List.foldl_append,
      ih fun value hmem => h value (List.mem_append_left _ hmem), eraseDups_append_singleton]
    by_cases hmem : value ∈ values <;> simp [Entry.extend, hvalue, hmem]

/-- The position of a value: the values put are counted in order of first insertion, after a value
that was stored before them. -/
def placeOf (extra : Option α) (values : List α) (value : α) : Nat :=
  extra.toList.length + values.eraseDups.idxOf value + 1

/-- What a table is after `values` were put and `positions` answered, if it held `extra` before. -/
structure Numbering (hash : α → UInt64) (extra : Option α) (values : List α)
    (positions : List Nat) (table : UniqueTable α) : Prop where
  /-- Equal values are answered equal positions. -/
  positions_eq : positions = values.map (placeOf extra values)
  /-- Different values are answered different positions. -/
  injOn : Set.InjOn (placeOf extra values) {value | value ∈ values}
  /-- A value stands at the position answered, and nowhere else. -/
  value?_iff : ∀ value ∈ values, ∀ i,
    table.value? i = some value ↔ i = placeOf extra values value
  /-- Values are stored in order of first insertion. -/
  values_eq : table.values.toList = extra.toList ++ values.eraseDups
  size_eq : table.size = values.toFinset.card + extra.toList.length
  /-- The chain of its hash holds a value. -/
  mem_chain : ∀ value ∈ values, placeOf extra values value ∈ table.chain hash value
  /-- All chains together hold a value once. -/
  count_chains : ∀ value ∈ values,
    (table.buckets.toList.flatten.filterMap table.value?).count value = 1
  /-- From its head, a chain is walked to its end. -/
  isChain_next? : ∀ chain ∈ table.buckets.toList,
    (chain ++ [0]).IsChain fun i j => table.next? hash i = some j
  /-- No walk comes back. -/
  next?_lt : ∀ i j, table.next? hash i = some j → j < i
  exists_bits : ∃ bits, table.buckets.size = 2 ^ bits
  load : table.size ≤ 2 * table.buckets.size

theorem injOn_placeOf (extra : Option α) (values : List α) :
    Set.InjOn (placeOf extra values) {value | value ∈ values} := by
  intro a ha b _ hab
  have hidx : values.eraseDups.idxOf a = values.eraseDups.idxOf b := by
    unfold placeOf at hab
    omega
  exact (List.idxOf_inj (List.mem_eraseDups.2 ha)).1 hidx

/-- A value at one position only, which is in its chain, is held once by all chains together. -/
theorem Chained.count_eq_one (h : Chained hash table) {value : α} {i : Nat}
    (hvalue : ∀ j, table.value? j = some value ↔ j = i) (hi : i ∈ table.chain hash value) :
    (table.buckets.toList.flatten.filterMap table.value?).count value = 1 := by
  have hcongr : ∀ j, (table.value? j == some value) = (j == i) := fun j => by simp [hvalue]
  calc (table.buckets.toList.flatten.filterMap table.value?).count value
      = table.buckets.toList.flatten.count i := by
        rw [List.count_filterMap, List.count]
        simp only [hcongr]
    _ = 1 := List.count_eq_one_of_mem h.nodup_flatten (mem_flatten_of_mem_chain hi)

/-- Puts keep the load. -/
theorem enterAll_load (h : Chained hash table) (hload : table.size ≤ 2 * table.buckets.size)
    (values : List α) :
    (table.enterAll hash (values.map .put)).2.size ≤
      2 * (table.enterAll hash (values.map .put)).2.buckets.size := by
  refine (enterAll_keeps
    (P := fun table => Chained hash table ∧ table.size ≤ 2 * table.buckets.size) ⟨h, hload⟩
    fun entry hentry table hkept => ?_).2
  obtain ⟨value, -, rfl⟩ := List.mem_map.1 hentry
  exact ⟨hkept.1.put value, put_load hkept.2 hkept.1.buckets_pos value⟩

theorem numbering_of_numbers {extra : Option α} {values : List α}
    (hnumbers : Numbers hash (· ∈ extra) table) (hchained : Chained hash table)
    (hvalues : table.values.toList = extra.toList) (hload : table.size ≤ 2 * table.buckets.size)
    (hextra : ∀ value ∈ values, value ∉ extra) :
    Numbering hash extra values (table.enterAll hash (values.map .put)).1
      (table.enterAll hash (values.map .put)).2 := by
  have hput : ∀ value, Entry.put value ∈ values.map Entry.put → value ∉ extra :=
    fun value hmem => hextra value (by simpa using hmem)
  have hlater : (values.map Entry.put).Pairwise fun entry later =>
      ∀ value, entry = .add value → later ≠ .put value := by
    refine List.pairwise_map.2 (List.pairwise_of_forall fun a b value hadd => ?_)
    cases hadd
  have hlast : Numbers hash (· ∈ extra) (table.enterAll hash (values.map .put)).2 := by
    refine enterAll_keeps hnumbers fun entry hentry table h => h.enter fun value hadd => ?_
    simp [hadd] at hentry
  have hchains : Chained hash (table.enterAll hash (values.map .put)).2 :=
    enterAll_keeps hchained fun entry _ table h => h.enter entry
  have hstored : (table.enterAll hash (values.map .put)).2.values.toList =
      extra.toList ++ values.eraseDups := by
    rw [(hnumbers.enterAll_eq hput hlater).2, hvalues,
      foldl_extend_puts fun value hmem => by simpa using hextra value hmem]
  have hplace : ∀ value ∈ values,
      (table.enterAll hash (values.map .put)).2.value? (placeOf extra values value) =
        some value := by
    intro value hmem
    have hidx := value?_idxOf (show value ∈ (table.enterAll hash (values.map .put)).2.values.toList
      by simp [hstored, hmem])
    rwa [hstored, List.idxOf_append_of_notMem (by simpa using hextra value hmem)] at hidx
  have hiff : ∀ value ∈ values, ∀ i,
      (table.enterAll hash (values.map .put)).2.value? i = some value ↔
        i = placeOf extra values value := by
    refine fun value hmem i => ⟨fun hi => ?_, fun hi => hi ▸ hplace value hmem⟩
    exact hlast.unique i _ value (hextra value hmem) hi (hplace value hmem)
  have hmem : ∀ value ∈ values, placeOf extra values value ∈
      (table.enterAll hash (values.map .put)).2.chain hash value := fun value hmem =>
    hlast.indexed.mem_chain _ value (hplace value hmem) (hextra value hmem)
  exact {
    positions_eq := eq_map_of_forall₂ (List.forall₂_map_left_iff.1 (forall₂_value?_enterAll _))
      fun value hvalue i => (hiff value hvalue i).1
    injOn := injOn_placeOf extra values
    value?_iff := hiff
    values_eq := hstored
    size_eq := by
      rw [size, ← Array.length_toList, hstored, List.length_append, length_eraseDups, add_comm]
    mem_chain := hmem
    count_chains := fun value hvalue => hchains.count_eq_one (hiff value hvalue) (hmem value hvalue)
    isChain_next? := fun chain hchain => by
      obtain ⟨k, hk⟩ := List.mem_iff_getElem?.1 hchain
      exact hchains.isChain_next? (by simpa using hk)
    next?_lt := fun i j => hchains.next?_lt
    exists_bits := hchains.exists_bits
    load := enterAll_load hchained hload values }

/-- The table that puts begin with. -/
def holding (table : UniqueTable α) (extra : Option α) : UniqueTable α :=
  extra.elim table fun value => (table.add value).2

theorem mem_chain_enter_of_mem (h : Chained hash table) {entry : Entry α} {kept : α} {i : Nat}
    (hkept : table.value? i = some kept) (hi : i ∈ table.chain hash kept) :
    i ∈ (table.enter hash entry).2.chain hash kept := by
  cases entry with
  | put value => exact mem_chain_put_of_mem h.buckets_pos hkept hi
  | add value => exact hi

/-- The positions answered to puts stay in the buckets of their values. -/
theorem Chained.forall₂_mem_chain (h : Chained hash table) (entries : List (Entry α)) :
    List.Forall₂ (fun entry i => ∀ value, entry = .put value →
      i ∈ (table.enterAll hash entries).2.chain hash value) entries
      (table.enterAll hash entries).1 := by
  induction entries generalizing table with
  | nil => exact .nil
  | cons entry rest ih =>
    rw [enterAll_cons]
    refine .cons (fun value hentry => ?_) (ih (h.enter entry))
    have hvalue := @value?_enter_fst α hash table _ entry
    have hmem := @mem_chain_put α hash table _ h.buckets_pos value
    subst hentry
    exact (enterAll_keeps (P := fun later => Chained hash later ∧
        later.value? (table.put hash value).1 = some value ∧
        (table.put hash value).1 ∈ later.chain hash value)
      ⟨h.put value, hvalue, hmem⟩ fun entry _ later ⟨hlater, hkept, hi⟩ =>
        ⟨hlater.enter entry, value?_enter_of_some hkept,
          mem_chain_enter_of_mem hlater hkept hi⟩).2.2

/-- A value is answered its position again as long as no newer position holds it. -/
theorem Chained.getElem?_enterAll (h : Chained hash table) {before : List (Entry α)} {value : α}
    {k i : Nat} (hk : before[k]? = some (.put value))
    (hi : (table.enterAll hash before).1[k]? = some i)
    (hnewest : ∀ j, i < j → (table.enterAll hash before).2.value? j ≠ some value)
    (rest : List (Entry α)) :
    (table.enterAll hash (before ++ .put value :: rest)).1[before.length]? = some i := by
  have hvalue : (table.enterAll hash before).2.value? i = some value :=
    rel_of_getElem? (forall₂_value?_enterAll before) hk hi
  have hmem : i ∈ (table.enterAll hash before).2.chain hash value :=
    rel_of_getElem? (h.forall₂_mem_chain before) hk hi value rfl
  have hlast : Chained hash (table.enterAll hash before).2 :=
    enterAll_keeps h fun entry _ table h => h.enter entry
  rw [enterAll_append, List.getElem?_append_right (length_enterAll before).le, length_enterAll,
    Nat.sub_self, enterAll_cons, List.getElem?_cons_zero, UniqueTable.enter,
    hlast.put_eq hvalue hmem hnewest]

/-- What is shared when values are added among the puts. A position holds the value it was answered
for. A value is answered the same position as long as no newer position holds it, in particular as
long as it was not added. If no value is put that was added before, neither the hash function nor
the initial number of buckets shows. -/
theorem enterAll_shares {bits : Nat} {fresh : UniqueTable α} (hfresh : ofBits? bits = some fresh)
    (hash : α → UInt64) (entries : List (Entry α)) :
    List.Forall₂ (fun entry i => (fresh.enterAll hash entries).2.value? i = some entry.value)
      entries (fresh.enterAll hash entries).1 ∧
    (∀ k l value i, k < l → entries[k]? = some (.put value) → entries[l]? = some (.put value) →
      (fresh.enterAll hash entries).1[k]? = some i →
      (.add value ∉ entries.take l ∨
        ∀ j, i < j → (fresh.enterAll hash (entries.take l)).2.value? j ≠ some value) →
      (fresh.enterAll hash entries).1[l]? = some i) ∧
    ((entries.Pairwise fun entry later => ∀ value, entry = .add value → later ≠ .put value) →
      ∀ (otherBits : Nat) (other : UniqueTable α) (otherHash : α → UInt64),
        ofBits? otherBits = some other →
        (other.enterAll otherHash entries).1 = (fresh.enterAll hash entries).1) := by
  refine ⟨forall₂_value?_enterAll entries, fun k l value i hkl hk hl hi hnewest => ?_,
    fun hlater otherBits other otherHash hother => ?_⟩
  · obtain ⟨hlt, hget⟩ := List.getElem?_eq_some_iff.1 hl
    have hlength : (entries.take l).length = l := List.length_take_of_le hlt.le
    have hsplit : entries = entries.take l ++ .put value :: entries.drop (l + 1) := by
      rw [← hget, List.getElem_cons_drop, List.take_append_drop]
    have hk' : (entries.take l)[k]? = some (.put value) := by
      rwa [List.getElem?_take_of_lt hkl]
    have hi' : (fresh.enterAll hash (entries.take l)).1[k]? = some i := by
      rwa [hsplit, enterAll_append, List.getElem?_append_left
        (by rw [length_enterAll, hlength]; exact hkl)] at hi
    have hnumbers : Numbers hash (fun value => .add value ∈ entries.take l)
        (fresh.enterAll hash (entries.take l)).2 :=
      enterAll_keeps (numbers_of_ofBits? hfresh) fun entry hentry table h =>
        h.enter fun value hvalue => hvalue ▸ hentry
    have hchained : Chained hash fresh := chained_of_ofBits? hfresh
    have hagain := hchained.getElem?_enterAll hk' hi' ?_ (entries.drop (l + 1))
    · rwa [← hsplit, hlength] at hagain
    · intro j hij hj
      obtain hadd | hnewest := hnewest
      · exact hij.ne (hnumbers.unique i j value hadd
          (rel_of_getElem? (forall₂_value?_enterAll _) hk' hi') hj)
      · exact hnewest j hij hj
  · have positions : ∀ {bits : Nat} {table : UniqueTable α} (hash : α → UInt64),
        ofBits? bits = some table → (table.enterAll hash entries).1 = positionsOf [] entries := by
      intro bits table hash htable
      have hnumbers : Numbers hash (fun _ => False) table := numbers_of_ofBits? htable
      rw [(hnumbers.enterAll_eq (fun _ _ h => h) hlater).1, buckets_of_ofBits? htable]
    rw [positions otherHash hother, positions hash hfresh]

/-- A value that was put and then added is found at its newer position once the buckets are doubled,
which does not happen in a larger table. -/
theorem exists_put_moved :
    ∃ (hash : Nat → UInt64) (entries : List (Entry Nat)) (small large : UniqueTable Nat),
      ofBits? 0 = some small ∧ ofBits? 1 = some large ∧
      entries = [.put 5, .add 5, .put 6, .put 5] ∧
      (small.enterAll hash entries).1 = [1, 2, 3, 2] ∧
      (large.enterAll hash entries).1 = [1, 2, 3, 1] :=
  ⟨Nat.toUInt64, _, _, _, rfl, rfl, rfl, by decide +kernel, by decide +kernel⟩

/-- Another value added among the puts changes no position, though the buckets are doubled. -/
theorem enterAll_shares_across_doubling :
    ∃ small large : UniqueTable Nat, ofBits? 0 = some small ∧ ofBits? 1 = some large ∧
      (small.enterAll Nat.toUInt64 [.put 5, .add 7, .put 6, .put 5]).1[3]? = some 1 ∧
      (large.enterAll Nat.toUInt64 [.put 5, .add 7, .put 6, .put 5]).1 =
        (small.enterAll Nat.toUInt64 [.put 5, .add 7, .put 6, .put 5]).1 := by
  have hsmall : ofBits? 0 = some (⟨#[], Array.replicate 1 []⟩ : UniqueTable Nat) := rfl
  have hlarge : ofBits? 1 = some (⟨#[], Array.replicate 2 []⟩ : UniqueTable Nat) := rfl
  obtain ⟨-, hagain, hsame⟩ :=
    enterAll_shares hsmall Nat.toUInt64 [.put 5, .add 7, .put 6, .put 5]
  refine ⟨_, _, hsmall, hlarge, ?_, hsame ?_ 1 _ Nat.toUInt64 hlarge⟩
  · exact hagain 0 3 5 1 (by decide) rfl rfl (by decide +kernel) (.inl (by decide))
  · simp

end PlanningGame.UniqueTable
