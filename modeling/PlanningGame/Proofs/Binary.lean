import Mathlib
import PlanningGame.Binary

/-!
# Reading and writing binary codes

Writing a number in a given number of bits and reading it back gives the number if there are bits
enough, and reading a code and writing it again gives the code. The width of a number is the least
number of bits that is enough for all numbers up to it. Words of 64 bits have the same codes.
-/
namespace PlanningGame.Binary

@[simp] theorem length_encode (n count : Nat) : (encode n count).length = count := by
  simp [encode]

theorem encode_succ (n count : Nat) :
    encode n (count + 1) = n.testBit 0 :: encode (n / 2) count := by
  unfold encode
  rw [List.range_succ_eq_map, List.map_cons, List.map_map]
  congr 1
  exact List.map_congr_left fun i _ => Nat.testBit_succ n i

theorem encode_decode (code : List Bool) : encode (decode code) code.length = code := by
  induction code with
  | nil => rfl
  | cons bit rest ih =>
    have hbit : (bit.toNat + 2 * decode rest).testBit 0 = bit := by
      rw [Nat.testBit_zero]
      cases bit <;> simp [Bool.toNat]
    have hrest : (bit.toNat + 2 * decode rest) / 2 = decode rest := by
      have := bit.toNat_lt
      omega
    rw [List.length_cons, encode_succ, decode, hbit, hrest, ih]

theorem decode_encode {n count : Nat} (h : n < 2 ^ count) : decode (encode n count) = n := by
  induction count generalizing n with
  | zero =>
    have : n = 0 := by simpa using h
    rw [this]
    rfl
  | succ count ih =>
    rw [encode_succ, decode, ih (by omega), Nat.testBit_zero]
    have := Nat.mod_two_eq_zero_or_one n
    rcases this with h0 | h1
    · simp [h0]
      omega
    · simp [h1]
      omega

theorem decode_lt (code : List Bool) : decode code < 2 ^ code.length := by
  induction code with
  | nil => exact Nat.one_pos
  | cons bit rest ih =>
    have := bit.toNat_lt
    rw [decode, List.length_cons, pow_succ]
    omega

theorem decode_eq_iff {code : List Bool} {n : Nat} (h : n < 2 ^ code.length) :
    decode code = n ↔ code = encode n code.length := by
  constructor
  · rintro rfl
    exact (encode_decode code).symm
  · intro hcode
    rw [hcode, decode_encode h]

/-- The largest number of so many bits is the one with all bits set. -/
theorem decode_add_one_eq_iff (code : List Bool) :
    decode code + 1 = 2 ^ code.length ↔ ∀ bit ∈ code, bit = true := by
  induction code with
  | nil => simp [decode]
  | cons bit rest ih =>
    have := decode_lt rest
    rw [List.forall_mem_cons, ← ih, decode, List.length_cons, pow_succ]
    cases bit <;> simp <;> omega

theorem width_le_iff {n count : Nat} : width n ≤ count ↔ n < 2 ^ count := by
  unfold width
  split
  case isTrue h => simp [h]
  case isFalse h => rw [Nat.succ_le_iff, Nat.log2_lt h]

theorem lt_two_pow_width (n : Nat) : n < 2 ^ width n :=
  width_le_iff.1 le_rfl

/-! ### The least number of bits -/

/-- Bits that are not written are lost. -/
theorem encode_mod (n count : Nat) : encode (n % 2 ^ count) count = encode n count := by
  refine List.map_congr_left fun i hi => ?_
  rw [Nat.testBit_mod_two_pow, decide_eq_true (List.mem_range.1 hi), Bool.true_and]

theorem encode_two_pow (count : Nat) : encode (2 ^ count) count = encode 0 count := by
  rw [← encode_mod (2 ^ count), Nat.mod_self]

theorem injOn_encode {n count : Nat} (h : ∀ id < n, decode (encode id count) = id) :
    Set.InjOn (fun id => encode id count) (Set.Iio n) := by
  intro id hid other hother heq
  rw [← h id hid, ← h other hother]
  exact congrArg decode heq

/-- Codes that are too short merge zero with the least number that they do not hold. -/
theorem width_le_of_injOn {n count : Nat} (hn : 0 < n)
    (h : Set.InjOn (fun id => encode id count) (Set.Iio n)) : width (n - 1) ≤ count := by
  rw [width_le_iff]
  by_contra hlarge
  have hmem : 2 ^ count < n := by omega
  exact (Nat.two_pow_pos count).ne' (h hmem hn (encode_two_pow count))

/-! ### Codes of machine words -/

/-- The number of bits of a word below its leading zeros. -/
def significant (word : BitVec 64) : Nat :=
  64 - word.clz.toNat

/-- The lowest bits of a word, each shifted to the end of the word. -/
def shifted (word : BitVec 64) (count : Nat) : List Bool :=
  (List.range count).map fun i => word >>> i &&& 1#64 == 1#64

/-- Join a bit into a word at a position. -/
def join (word : BitVec 64) (entry : Bool × Nat) : BitVec 64 :=
  if entry.1 then word ||| 1#64 <<< entry.2 else word

/-- The word into which all bits are joined. -/
def joined (bits : List Bool) : BitVec 64 :=
  bits.zipIdx.foldl join 0#64

theorem width_toNat (word : BitVec 64) : width word.toNat = significant word := by
  apply le_antisymm
  · exact width_le_iff.2 BitVec.toNat_lt_two_pow_sub_clz
  · by_cases hzero : word = 0#64
    · have hclz : word.clz = 64 := BitVec.clz_eq_iff_eq_zero.2 hzero
      simp [significant, hclz]
    · have hle := BitVec.two_pow_sub_clz_le_toNat_of_ne_zero (by decide) hzero
      have hlt := hle.trans_lt (lt_two_pow_width word.toNat)
      have := (Nat.pow_lt_pow_iff_right (by decide)).1 hlt
      unfold significant
      omega

theorem encode_toNat (word : BitVec 64) (count : Nat) :
    encode word.toNat count = shifted word count := by
  refine List.map_congr_left fun i _ => ?_
  have hbit : (word >>> i &&& 1#64).toNat = word.toNat / 2 ^ i % 2 := by
    rw [BitVec.toNat_and, BitVec.toNat_ushiftRight, Nat.shiftRight_eq_div_pow]
    exact Nat.and_one_is_mod _
  rw [Nat.testBit_eq_decide_div_mod_eq, ← hbit, Bool.eq_iff_iff, decide_eq_true_iff, beq_iff_eq,
    ← BitVec.toNat_inj]
  rfl

/-- A bit above all that are set adds its power of two. -/
theorem toNat_join {word : BitVec 64} {i : Nat} (hword : word.toNat < 2 ^ i) (hi : i < 64)
    (bit : Bool) : (join word (bit, i)).toNat = word.toNat + 2 ^ i * bit.toNat := by
  cases bit with
  | false => simp [join]
  | true =>
    have hshift : (1#64 <<< i).toNat = 2 ^ i := by
      rw [BitVec.toNat_shiftLeft, BitVec.toNat_ofNat, Nat.one_mod_eq_one.2 (by decide),
        Nat.one_shiftLeft, Nat.mod_eq_of_lt (Nat.pow_lt_pow_right (by decide) hi)]
    have hor := Nat.two_pow_add_eq_or_of_lt hword 1
    rw [Nat.mul_one] at hor
    rw [join, if_pos rfl, BitVec.toNat_or, hshift, Nat.or_comm, ← hor, Bool.toNat_true,
      Nat.mul_one, Nat.add_comm]

theorem toNat_foldl_join {bits : List Bool} {start : Nat} {word : BitVec 64}
    (hword : word.toNat < 2 ^ start) (hlength : start + bits.length ≤ 64) :
    ((bits.zipIdx start).foldl join word).toNat = word.toNat + 2 ^ start * decode bits := by
  -- the word has no bit from `start` on, so that each bit comes above all others
  induction bits generalizing start word with
  | nil => simp [decode]
  | cons bit rest ih =>
    rw [List.length_cons] at hlength
    have hjoin := toNat_join hword (by omega) bit
    have hbit : 2 ^ start * bit.toNat ≤ 2 ^ start * 1 :=
      Nat.mul_le_mul_left _ (Nat.le_of_lt_succ bit.toNat_lt)
    have hlt : (join word (bit, start)).toNat < 2 ^ (start + 1) := by
      rw [hjoin, pow_succ]
      omega
    rw [List.zipIdx_cons, List.foldl_cons, ih hlt (by omega), hjoin, decode, pow_succ]
    ring

theorem toNat_joined {bits : List Bool} (h : bits.length ≤ 64) :
    (joined bits).toNat = decode bits := by
  rw [joined, toNat_foldl_join (by decide) (by omega)]
  simp

/-- The numbers below `n` are written in the fewest bits with which each is read back, which are
also the fewest with which their codes differ. Machine words have these codes as well: the width is
that of the word without its leading zeros, writing shifts the word, and reading joins the bits. -/
theorem codes_exact {n : Nat} (hn : 0 < n) :
    IsLeast {count | ∀ id < n, decode (encode id count) = id} (width (n - 1)) ∧
    IsLeast {count | Set.InjOn (fun id => encode id count) (Set.Iio n)} (width (n - 1)) ∧
    (∀ bits : List Bool, bits.length ≤ 64 →
      encode (decode bits) bits.length = bits ∧ (joined bits).toNat = decode bits) ∧
    ∀ word : BitVec 64, width word.toNat = significant word ∧
      ∀ count, encode word.toNat count = shifted word count := by
  have hread : ∀ id < n, decode (encode id (width (n - 1))) = id := by
    intro id hid
    have hlt := lt_two_pow_width (n - 1)
    exact decode_encode (by omega)
  refine ⟨⟨hread, fun count h => width_le_of_injOn hn (injOn_encode h)⟩,
    ⟨injOn_encode hread, fun count h => width_le_of_injOn hn h⟩,
    fun bits hbits => ⟨encode_decode bits, toNat_joined hbits⟩,
    fun word => ⟨width_toNat word, encode_toNat word⟩⟩

/-- All words need all bits. -/
theorem codes_of_words :
    0 < 2 ^ 64 ∧ IsLeast {count | ∀ id < 2 ^ 64, decode (encode id count) = id} 64 ∧
      encode (decode (List.replicate 64 true)) 64 = List.replicate 64 true := by
  have hn : 0 < 2 ^ 64 := by decide
  obtain ⟨hleast, -, hbits, -⟩ := codes_exact hn
  exact ⟨hn, hleast, (hbits (List.replicate 64 true) (by decide)).1⟩

end PlanningGame.Binary
