/-!
# Random words

A fixed sequence of words for each seed, by mixing the bits of a counter.
-/

namespace Forth

/-- The `n`-th random word that belongs to a seed. -/
def randomWords (seed : UInt64) (n : Nat) : UInt64 :=
  let z := seed + n.toUInt64 * 0x9E3779B97F4A7C15
  let z := (z ^^^ (z >>> 30)) * 0xBF58476D1CE4E5B9
  let z := (z ^^^ (z >>> 27)) * 0x94D049BB133111EB
  z ^^^ (z >>> 31)

end Forth
