import Mathlib
import PlanningGame.Pairing

/-!
# Pairing of half words

The greatest pair of words below `2 ^ 32` just fills a word, so no operation wraps on such pairs.
There the pairing is that of the natural numbers, which walks the square of all pairs shell by shell
and meets every number below `2 ^ 64` once.
-/
namespace PlanningGame.Pairing

variable {a b : UInt64}

theorem toNat_add_of_lt (h : a.toNat + b.toNat < 2 ^ 64) :
    (a + b).toNat = a.toNat + b.toNat := by
  rw [UInt64.toNat_add, Nat.mod_eq_of_lt h]

theorem toNat_mul_of_lt (h : a.toNat * b.toNat < 2 ^ 64) :
    (a * b).toNat = a.toNat * b.toNat := by
  rw [UInt64.toNat_mul, Nat.mod_eq_of_lt h]

theorem square_add_lt {m n : Nat} (hm : m < 2 ^ 32) (hn : n ≤ m) : m * m + m + n < 2 ^ 64 := by
  have hsquare : m * m ≤ (2 ^ 32 - 1) * (2 ^ 32 - 1) := Nat.mul_le_mul (by omega) (by omega)
  omega

/-- The operations that pair two words do not wrap: each gives the sum or the product of the natural
numbers. -/
def Exact (a b : UInt64) : Prop :=
  if a < b then
    pair a b = b * b + a ∧
      (b * b).toNat = b.toNat * b.toNat ∧ (b * b + a).toNat = (b * b).toNat + a.toNat
  else
    pair a b = a * a + a + b ∧
      (a * a).toNat = a.toNat * a.toNat ∧ (a * a + a).toNat = (a * a).toNat + a.toNat ∧
        (a * a + a + b).toNat = (a * a + a).toNat + b.toNat

theorem exact_of_lt (ha : a.toNat < 2 ^ 32) (hb : b.toNat < 2 ^ 32) : Exact a b := by
  unfold Exact
  split
  case isTrue h =>
    have hlt := square_add_lt hb (UInt64.lt_iff_toNat_lt.1 h).le
    have hsquare : (b * b).toNat = b.toNat * b.toNat := toNat_mul_of_lt (by omega)
    exact ⟨if_pos h, hsquare, toNat_add_of_lt (by omega)⟩
  case isFalse h =>
    have hlt := square_add_lt ha (UInt64.le_iff_toNat_le.1 (UInt64.not_lt.1 h))
    have hsquare : (a * a).toNat = a.toNat * a.toNat := toNat_mul_of_lt (by omega)
    have hsum : (a * a + a).toNat = (a * a).toNat + a.toNat := toNat_add_of_lt (by omega)
    exact ⟨if_neg h, hsquare, hsum, toNat_add_of_lt (by omega)⟩

theorem Exact.toNat_pair (h : Exact a b) : (pair a b).toNat = Nat.pair a.toNat b.toNat := by
  rw [Nat.pair]
  unfold Exact at h
  split at h
  case isTrue hlt =>
    obtain ⟨hpair, hsquare, hsum⟩ := h
    rw [if_pos (UInt64.lt_iff_toNat_lt.1 hlt), hpair, hsum, hsquare]
  case isFalse hlt =>
    obtain ⟨hpair, hsquare, hsum, hlast⟩ := h
    rw [if_neg (mt UInt64.lt_iff_toNat_lt.2 hlt), hpair, hlast, hsum, hsquare]

/-- A number below a square belongs to a pair of numbers below the side. -/
theorem unpair_lt_of_lt_sq {n side : Nat} (h : n < side ^ 2) :
    (Nat.unpair n).1 < side ∧ (Nat.unpair n).2 < side := by
  have hle := Nat.max_sq_add_min_le_pair (Nat.unpair n).1 (Nat.unpair n).2
  rw [Nat.pair_unpair] at hle
  have hmax : max (Nat.unpair n).1 (Nat.unpair n).2 < side :=
    lt_of_pow_lt_pow_left₀ 2 side.zero_le (by omega)
  exact max_lt_iff.1 hmax

theorem exists_pair_eq {n : Nat} (hn : n < 2 ^ 64) :
    ∃ a b : UInt64, a.toNat < 2 ^ 32 ∧ b.toNat < 2 ^ 32 ∧ (pair a b).toNat = n := by
  obtain ⟨hfirst, hsecond⟩ : (Nat.unpair n).1 < 2 ^ 32 ∧ (Nat.unpair n).2 < 2 ^ 32 :=
    unpair_lt_of_lt_sq hn
  have hword : ∀ m < 2 ^ 32, (UInt64.ofNat m).toNat = m := fun m hm =>
    UInt64.toNat_ofNat_of_lt' (hm.trans (by decide))
  have ha := (hword _ hfirst).trans_lt hfirst
  have hb := (hword _ hsecond).trans_lt hsecond
  refine ⟨_, _, ha, hb, ?_⟩
  rw [(exact_of_lt ha hb).toNat_pair, hword _ hfirst, hword _ hsecond, Nat.pair_unpair]

/-- Pairs of words below `2 ^ 32` are paired without wrapping, and the numbers of these pairs are
the numbers below `2 ^ 64`, each once. -/
theorem pair_bijOn_halves :
    (∀ a b : UInt64, a.toNat < 2 ^ 32 → b.toNat < 2 ^ 32 → Exact a b) ∧
    Set.BijOn (fun words : UInt64 × UInt64 => (pair words.1 words.2).toNat)
      {words | words.1.toNat < 2 ^ 32 ∧ words.2.toNat < 2 ^ 32} (Set.Iio (2 ^ 64)) := by
  refine ⟨fun a b => exact_of_lt, fun words _ => UInt64.toNat_lt _, ?_, ?_⟩
  · rintro ⟨a, b⟩ ⟨ha, hb⟩ ⟨c, d⟩ ⟨hc, hd⟩ heq
    have hpair : Nat.pair a.toNat b.toNat = Nat.pair c.toNat d.toNat := by
      rw [← (exact_of_lt ha hb).toNat_pair, ← (exact_of_lt hc hd).toNat_pair]
      exact heq
    obtain ⟨hfirst, hsecond⟩ := Nat.pair_eq_pair.1 hpair
    exact Prod.ext (UInt64.toNat_inj.1 hfirst) (UInt64.toNat_inj.1 hsecond)
  · intro n hn
    obtain ⟨a, b, ha, hb, heq⟩ := exists_pair_eq hn
    exact ⟨(a, b), ⟨ha, hb⟩, heq⟩

/-- The greatest pair of such words is paired with the greatest word. -/
theorem pair_greatest_half :
    (4294967295 : UInt64).toNat < 2 ^ 32 ∧ Exact 4294967295 4294967295 ∧
      pair 4294967295 4294967295 = 18446744073709551615 := by
  have hhalf : (4294967295 : UInt64).toNat < 2 ^ 32 := by decide
  exact ⟨hhalf, pair_bijOn_halves.1 _ _ hhalf hhalf, by decide⟩

end PlanningGame.Pairing
