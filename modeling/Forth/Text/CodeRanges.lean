/-!
# Sets of characters as ranges of code points
-/

namespace Forth.Text

/-- A set of code points, as inclusive ranges. -/
abbrev CodeRanges := List (Nat × Nat)

/-- Whether a code point lies in one of the ranges. -/
def CodeRanges.covers (ranges : CodeRanges) (n : Nat) : Bool :=
  ranges.any fun (lo, hi) => lo ≤ n && n ≤ hi

theorem CodeRanges.covers_iff (ranges : CodeRanges) (n : Nat) :
    ranges.covers n = true ↔ ∃ r ∈ ranges, r.1 ≤ n ∧ n ≤ r.2 := by
  simp [CodeRanges.covers]

end Forth.Text
