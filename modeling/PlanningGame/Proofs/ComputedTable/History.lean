import PlanningGame.Proofs.ComputedTable

/-!
# What a table of results remembers

The answers of a table as a function of the calls made so far. A look-up finds the result of the
last insertion at the place of its key, if that insertion was for the same key and the table was not
cleared since. Every look-up is counted once.
-/
namespace PlanningGame.ComputedTable

variable {κ α : Type} {hash : κ → UInt64} {bits : Nat} {table : ComputedTable κ α}

/-! ### Calls -/

/-- A call of a table. -/
inductive Call (κ α : Type) where
  /-- Look a key up. -/
  | get (key : κ)
  /-- Keep a result. -/
  | insert (key : κ) (result : α)
  /-- Forget all results. -/
  | clear

/-- The call looks a key up. -/
def Call.isGet : Call κ α → Bool
  | get _ => true
  | _ => false

/-- The place of a key is given by the lowest bits of its hash. -/
def place (hash : κ → UInt64) (bits : Nat) (key : κ) : Nat :=
  (hash key &&& .ofNat (2 ^ bits - 1)).toNat

theorem place_eq_mod (hbits : bits ≤ 31) (key : κ) :
    place hash bits key = (hash key).toNat % 2 ^ bits := by
  have hle : 2 ^ bits ≤ 2 ^ 31 := Nat.pow_le_pow_right (by decide) hbits
  have hmask : 2 ^ bits - 1 < UInt64.size := (Nat.sub_le _ _).trans_lt (hle.trans_lt (by decide))
  rw [place, UInt64.toNat_and, UInt64.toNat_ofNat_of_lt' hmask, Nat.and_two_pow_sub_one_eq_mod]

/-- The call leaves the place of a key as it is. -/
def Call.Spares (hash : κ → UInt64) (bits : Nat) (key : κ) : Call κ α → Prop
  | get _ => True
  | insert other _ => place hash bits other ≠ place hash bits key
  | clear => False

/-- Of the insertions at the place of a key, the last one was of this result for this key, and the
table was not cleared since. -/
def Survives (hash : κ → UInt64) (bits : Nat) (calls : List (Call κ α)) (key : κ) (result : α) :
    Prop :=
  ∃ before after, calls = before ++ .insert key result :: after ∧
    ∀ call ∈ after, call.Spares hash bits key

theorem not_survives_nil {key : κ} {result : α} : ¬ Survives hash bits [] key result := by
  rintro ⟨before, after, hsplit, -⟩
  simp at hsplit

/-- A result survives a call that inserts it, or that leaves its place as it is. -/
theorem survives_concat_iff {calls : List (Call κ α)} {call : Call κ α} {key : κ} {result : α} :
    Survives hash bits (calls ++ [call]) key result ↔
      call = .insert key result ∨
        call.Spares hash bits key ∧ Survives hash bits calls key result := by
  constructor
  · rintro ⟨before, after, hsplit, hspares⟩
    cases after using List.reverseRecOn with
    | nil => exact .inl (List.singleton_inj.1 (List.append_inj' hsplit rfl).2)
    | append_singleton after last =>
      rw [← List.cons_append, ← List.append_assoc] at hsplit
      obtain ⟨hcalls, hlast⟩ := List.append_inj' hsplit rfl
      obtain rfl := List.singleton_inj.1 hlast
      exact .inr ⟨hspares call (by simp), before, after, hcalls,
        fun other hother => hspares other (List.mem_append_left _ hother)⟩
  · rintro (rfl | ⟨hcall, before, after, rfl, hspares⟩)
    · exact ⟨calls, [], rfl, by simp⟩
    · refine ⟨before, after ++ [call], by simp, fun other hother => ?_⟩
      rcases List.mem_append.1 hother with hmem | hmem
      · exact hspares other hmem
      · exact List.mem_singleton.1 hmem ▸ hcall

/-! ### What is kept -/

/-- What is kept at a place is what survives there of the calls. -/
structure Recalls (hash : κ → UInt64) (bits : Nat) (calls : List (Call κ α))
    (table : ComputedTable κ α) : Prop where
  bits_le : bits ≤ 31
  size_eq : table.slots.size = 2 ^ bits
  kept_iff : ∀ i key result, table.slots[i]? = some (some (key, result)) ↔
    i = place hash bits key ∧ Survives hash bits calls key result

theorem recalls_of_ofBits? (hbits : bits ≤ 31) (h : ofBits? bits = some table) :
    Recalls hash bits ([] : List (Call κ α)) table := by
  rw [ofBits?, if_pos hbits] at h
  obtain rfl := Option.some.inj h
  refine ⟨hbits, by simp [Binary.codes], fun i key result => ?_⟩
  simp [Array.getElem?_replicate, not_survives_nil]

namespace Recalls

variable {calls : List (Call κ α)}

theorem slot_eq (h : Recalls hash bits calls table) (key : κ) :
    table.slot hash key = place hash bits key := by
  rw [slot, h.size_eq, place_eq_mod h.bits_le]

theorem place_lt (h : Recalls hash bits calls table) (key : κ) :
    place hash bits key < table.slots.size := by
  rw [← h.slot_eq]
  exact Nat.mod_lt _ (h.size_eq ▸ Nat.two_pow_pos bits)

theorem insert (h : Recalls hash bits calls table) (key : κ) (result : α) :
    Recalls hash bits (calls ++ [.insert key result]) (table.insert hash key result) := by
  refine ⟨h.bits_le, Array.size_setIfInBounds.trans h.size_eq, fun i kept found => ?_⟩
  rw [survives_concat_iff, ComputedTable.insert, Array.getElem?_setIfInBounds, h.slot_eq]
  split
  case isTrue hi =>
    subst hi
    rw [if_pos (h.place_lt key)]
    constructor
    · intro heq
      obtain ⟨rfl, rfl⟩ : key = kept ∧ result = found := by simpa using heq
      exact ⟨rfl, .inl rfl⟩
    · rintro ⟨hplace, heq | ⟨hspares, -⟩⟩
      · obtain ⟨rfl, rfl⟩ := Call.insert.inj heq
        rfl
      · exact absurd hplace hspares
  case isFalse hi =>
    rw [h.kept_iff]
    refine and_congr_right fun hplace => ⟨fun hkept => .inr ⟨?_, hkept⟩, ?_⟩
    · exact fun hsame => hi (hsame.trans hplace.symm)
    · rintro (heq | ⟨-, hkept⟩)
      · obtain ⟨rfl, rfl⟩ := Call.insert.inj heq
        exact absurd hplace.symm hi
      · exact hkept

theorem clear (h : Recalls hash bits calls table) :
    Recalls hash bits (calls ++ [.clear]) table.clear := by
  refine ⟨h.bits_le, Array.size_replicate.trans h.size_eq, fun i key result => ?_⟩
  rw [survives_concat_iff]
  simp [ComputedTable.clear, Array.getElem?_replicate, Call.Spares]

variable [DecidableEq κ]

theorem get (h : Recalls hash bits calls table) (key : κ) :
    Recalls hash bits (calls ++ [.get key]) (table.get hash key).2 := by
  have hslots : (table.get hash key).2.slots = table.slots := slots_get
  refine ⟨h.bits_le, hslots ▸ h.size_eq, fun i kept found => ?_⟩
  rw [hslots, h.kept_iff, survives_concat_iff]
  simp [Call.Spares]

theorem find?_eq_some_iff (h : Recalls hash bits calls table) {key : κ} {result : α} :
    table.find? hash key = some result ↔ Survives hash bits calls key result := by
  rw [ComputedTable.find?_eq_some_iff, h.kept_iff, h.slot_eq]
  exact and_iff_right rfl

end Recalls

/-! ### Calls one after the other -/

theorem counts_count (found : Bool) :
    (table.count found).hits = table.hits + (if found then 1 else 0) ∧
      (table.count found).hits + (table.count found).misses = table.hits + table.misses + 1 := by
  cases found with
  | true => exact ⟨rfl, Nat.add_right_comm _ _ _⟩
  | false => exact ⟨rfl, rfl⟩

section Run

variable [DecidableEq κ]

/-- Make a call. Only a look-up has an answer. -/
def perform (hash : κ → UInt64) (table : ComputedTable κ α) :
    Call κ α → Option α × ComputedTable κ α
  | .get key => table.get hash key
  | .insert key result => (none, table.insert hash key result)
  | .clear => (none, table.clear)

/-- Make calls one after the other: the answers, and the table after them. -/
def performAll (hash : κ → UInt64) (table : ComputedTable κ α) :
    List (Call κ α) → List (Option α) × ComputedTable κ α
  | [] => ([], table)
  | call :: rest =>
    let (answer, next) := table.perform hash call
    let (answers, last) := next.performAll hash rest
    (answer :: answers, last)

theorem performAll_cons (call : Call κ α) (rest : List (Call κ α)) :
    table.performAll hash (call :: rest) =
      ((table.perform hash call).1 :: ((table.perform hash call).2.performAll hash rest).1,
        ((table.perform hash call).2.performAll hash rest).2) := rfl

/-- Each call is answered by the table that the earlier calls leave. -/
theorem getElem?_performAll (calls : List (Call κ α)) (k : Nat) :
    (table.performAll hash calls).1[k]? =
      calls[k]?.map fun call => ((table.performAll hash (calls.take k)).2.perform hash call).1 := by
  induction calls generalizing table k with
  | nil => rfl
  | cons call rest ih =>
    cases k with
    | zero => rfl
    | succ k => exact ih k

theorem Recalls.perform {calls : List (Call κ α)} (h : Recalls hash bits calls table)
    (call : Call κ α) : Recalls hash bits (calls ++ [call]) (table.perform hash call).2 := by
  cases call with
  | get key => exact h.get key
  | insert key result => exact h.insert key result
  | clear => exact h.clear

theorem Recalls.performAll {calls : List (Call κ α)} (h : Recalls hash bits calls table)
    (more : List (Call κ α)) :
    Recalls hash bits (calls ++ more) (table.performAll hash more).2 := by
  induction more generalizing calls table with
  | nil =>
    rw [List.append_nil]
    exact h
  | cons call rest ih =>
    rw [performAll_cons, List.append_cons]
    exact ih (h.perform call)

/-- A look-up is counted by what it answers. The other calls are neither answered nor counted. -/
theorem counts_perform (call : Call κ α) :
    (table.perform hash call).2.hits =
        table.hits + (if (table.perform hash call).1.isSome then 1 else 0) ∧
      (table.perform hash call).2.hits + (table.perform hash call).2.misses =
        table.hits + table.misses + if call.isGet then 1 else 0 := by
  cases call with
  | get key => exact counts_count _
  | insert key result => exact ⟨rfl, rfl⟩
  | clear => exact ⟨rfl, rfl⟩

theorem counts_performAll (calls : List (Call κ α)) :
    (table.performAll hash calls).2.hits =
        table.hits + (table.performAll hash calls).1.countP Option.isSome ∧
      (table.performAll hash calls).2.hits + (table.performAll hash calls).2.misses =
        table.hits + table.misses + calls.countP Call.isGet := by
  induction calls generalizing table with
  | nil => exact ⟨rfl, rfl⟩
  | cons call rest ih =>
    obtain ⟨hhits, hsum⟩ := @counts_perform κ α hash table _ call
    obtain ⟨hrest, hall⟩ := @ih (table.perform hash call).2
    simp only [performAll_cons, List.countP_cons]
    omega

/-- A table answers a look-up with the result of the last insertion at the place of the key that was
made since the table was cleared last, if that was for the same key, and with nothing otherwise. All
look-ups are counted, and among them those that found something. -/
theorem performAll_exact {bits : Nat} (hbits : bits ≤ 31) (hash : κ → UInt64)
    (calls : List (Call κ α)) :
    ∃ fresh : ComputedTable κ α, ofBits? bits = some fresh ∧
      (∀ k key, calls[k]? = some (.get key) →
        ∃ answer, (fresh.performAll hash calls).1[k]? = some answer ∧
          ∀ result, answer = some result ↔ Survives hash bits (calls.take k) key result) ∧
      (fresh.performAll hash calls).2.hits =
        (fresh.performAll hash calls).1.countP Option.isSome ∧
      (fresh.performAll hash calls).2.hits + (fresh.performAll hash calls).2.misses =
        calls.countP Call.isGet := by
  obtain ⟨fresh, hfresh⟩ : ∃ fresh : ComputedTable κ α, ofBits? bits = some fresh :=
    ⟨_, if_pos hbits⟩
  have hzero : fresh.hits = 0 ∧ fresh.misses = 0 := by
    rw [ofBits?, if_pos hbits] at hfresh
    obtain rfl := Option.some.inj hfresh
    exact ⟨rfl, rfl⟩
  obtain ⟨hhits, hsum⟩ := @counts_performAll κ α hash fresh _ calls
  refine ⟨fresh, hfresh, fun k key hk => ?_, by omega, by omega⟩
  have hempty : Recalls hash bits [] fresh := recalls_of_ofBits? hbits hfresh
  have hrecalls := hempty.performAll (calls.take k)
  rw [getElem?_performAll, hk]
  exact ⟨_, rfl, fun result => hrecalls.find?_eq_some_iff⟩

/-- Results for two keys, which are then looked up, and one of them again after a clearing. -/
def displacing : List (Call Nat Nat) :=
  [.insert 1 10, .insert 2 20, .get 1, .get 2, .clear, .get 2]

/-- In a table of one place the second key displaces the first one. -/
theorem performAll_displacing :
    0 ≤ 31 ∧ ∃ fresh : ComputedTable Nat Nat, ofBits? 0 = some fresh ∧
      (fresh.performAll Nat.toUInt64 displacing).1 = [none, none, none, some 20, none, none] ∧
      (∀ result, ¬ Survives Nat.toUInt64 0 (displacing.take 2) 1 result) ∧
      Survives Nat.toUInt64 0 (displacing.take 3) 2 20 ∧
      (fresh.performAll Nat.toUInt64 displacing).2.hits = 1 ∧
      (fresh.performAll Nat.toUInt64 displacing).2.misses = 2 := by
  have hbits : 0 ≤ 31 := by decide
  obtain ⟨fresh, hfresh, hanswers, hhits, hsum⟩ := performAll_exact hbits Nat.toUInt64 displacing
  obtain rfl := Option.some.inj hfresh
  obtain ⟨first, hfirst, hgone⟩ := hanswers 2 1 rfl
  obtain ⟨second, hsecond, hkept⟩ := hanswers 3 2 rfl
  have hnone : none = first := Option.some.inj hfirst
  have hsome : some 20 = second := Option.some.inj hsecond
  refine ⟨hbits, _, hfresh, by decide, fun result hresult => ?_, (hkept 20).1 hsome.symm, hhits, ?_⟩
  · exact absurd ((hgone result).2 hresult) (by simp [← hnone])
  · exact Nat.add_left_cancel (show 1 + _ = 1 + 2 from hsum)

end Run

end PlanningGame.ComputedTable
