import PlanningGame.Binary

/-!
# Numbering of values

A unique table gives every value a position, counted from one. A hash function spreads the
positions over buckets; each bucket lists its positions, newest first. Values are never removed.
The number of buckets doubles as soon as there are more than twice as many values as buckets.

The hash function is an argument of the operations that need it, so what is said of them holds for
every hash function.
-/
namespace PlanningGame

/-- Values with their positions. -/
structure UniqueTable (α : Type) where
  /-- The value at position `i` is stored under `i - 1`. -/
  values : Array α
  /-- The positions in each bucket, newest first. -/
  buckets : Array (List Nat)

namespace UniqueTable

variable {α : Type}

/-- Bits of the largest bucket count that a new table starts with. -/
def maxInitialBits : Nat := 16

/-- A table without values. A table for more than `2 ^ 31` values is refused. -/
def ofBits? (bits : Nat) : Option (UniqueTable α) :=
  if bits ≤ 31 then some ⟨#[], Array.replicate (Binary.codes (min bits maxInitialBits)) []⟩
  else none

/-- Number of values. -/
def size (table : UniqueTable α) : Nat :=
  table.values.size

/-- The value at a position. Nothing is at position zero. -/
def value? (table : UniqueTable α) : Nat → Option α
  | 0 => none
  | i + 1 => table.values[i]?

/-- The bucket of a value when there are `count` buckets. -/
def bucketAmong (hash : α → UInt64) (count : Nat) (value : α) : Nat :=
  (hash value).toNat % count

/-- The positions in the bucket of a value. -/
def chain (hash : α → UInt64) (table : UniqueTable α) (value : α) : List Nat :=
  table.buckets[bucketAmong hash table.buckets.size value]?.getD []

/-- The position after `i` in a chain, or zero at its end or outside it. -/
def successorIn (i : Nat) : List Nat → Nat
  | j :: k :: rest => if j = i then k else successorIn i (k :: rest)
  | _ => 0

/-- The position that follows `i` in its bucket, or zero if none does. -/
def next? (hash : α → UInt64) (table : UniqueTable α) (i : Nat) : Option Nat :=
  (table.value? i).map fun value => successorIn i (table.chain hash value)

/-- Store a value at the next position without entering it into a bucket. -/
def add (table : UniqueTable α) (value : α) : Nat × UniqueTable α :=
  (table.size + 1, { table with values := table.values.push value })

/-- Enter the positions from `start` on into the buckets, in order of position. -/
def link (hash : α → UInt64) (start : Nat) :
    List α → Array (List Nat) → Array (List Nat)
  | [], buckets => buckets
  | value :: rest, buckets =>
    link hash (start + 1) rest
      (buckets.modify (bucketAmong hash buckets.size value) (start :: ·))

/-- Double the number of buckets and enter every position anew. -/
def grow (hash : α → UInt64) (table : UniqueTable α) : UniqueTable α :=
  { table with
    buckets := link hash 1 table.values.toList (Array.replicate (2 * table.buckets.size) []) }

/-- Store a value at the next position and enter it into its bucket. -/
def insert (hash : α → UInt64) (table : UniqueTable α) (value : α) : UniqueTable α :=
  let ⟨values, buckets⟩ := table
  let position := values.size + 1
  let bucket := bucketAmong hash buckets.size value
  ⟨values.push value, buckets.modify bucket (position :: ·)⟩

/-- The newest position in the bucket of a value that holds the value. -/
def find? [DecidableEq α] (hash : α → UInt64) (table : UniqueTable α) (value : α) : Option Nat :=
  (table.chain hash value).find? fun i => table.value? i = some value

/-- Whether there are more than twice as many values as buckets. -/
def isCrowded (table : UniqueTable α) : Bool :=
  2 * table.buckets.size < table.size

/-- The position of a value, which is stored first if no entry of its bucket equals it. -/
def put [DecidableEq α] (hash : α → UInt64) (table : UniqueTable α) (value : α) :
    Nat × UniqueTable α :=
  match table.find? hash value with
  | some i => (i, table)
  | none =>
    let table := table.insert hash value
    (table.size, if table.isCrowded then table.grow hash else table)

end UniqueTable

end PlanningGame
