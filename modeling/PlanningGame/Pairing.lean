/-!
# Pairing of machine words

One word for two or three words, by walking the shells of the square grid. The tables use it to
choose a bucket, so every operation wraps at 64 bits instead of failing.
-/
namespace PlanningGame.Pairing

/-- The pairs with maximum `m` fill the numbers from `m * m` on: first those with `b = m` and
`a < m`, then those with `a = m`. -/
def pair (a b : UInt64) : UInt64 :=
  if a < b then b * b + a else a * a + a + b

/-- Three words: the first two are paired, then the result with the third. -/
def triple (a b c : UInt64) : UInt64 :=
  pair (pair a b) c

end PlanningGame.Pairing
