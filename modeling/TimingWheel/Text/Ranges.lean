/-!
# Sets of characters as ranges

A property of characters that follows no simple rule is given by the ranges of code
points that have it, in ascending order.

## Main definitions

- `Text.Ranges` — a set of characters
- `Text.Ranges.holds` — membership
-/

namespace TimingWheel.Text

/-- Ranges of code points, each by its first and its last member. -/
abbrev Ranges := List (Nat × Nat)

namespace Ranges

/-- The character lies in one of the ranges. -/
def holds (ranges : Ranges) (c : Char) : Bool :=
  ranges.any fun (first, last) => decide (first ≤ c.toNat) && decide (c.toNat ≤ last)

end Ranges

end TimingWheel.Text
