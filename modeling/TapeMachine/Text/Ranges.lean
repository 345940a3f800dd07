/-!
# Ranges of code points

Character classes that are given as tables: lists of closed ranges of code points.
-/

namespace TapeMachine.Text

/-- Membership of a code point in a list of closed ranges. -/
def inRanges (ranges : List (Nat × Nat)) (n : Nat) : Bool :=
  ranges.any fun r ↦ r.1 ≤ n && n ≤ r.2

/-- The ranges are not empty, and each ends before the next begins. -/
def areAscending : List (Nat × Nat) → Bool
  | [] => true
  | [r] => r.1 ≤ r.2
  | r :: s :: rest => r.1 ≤ r.2 && r.2 < s.1 && areAscending (s :: rest)

end TapeMachine.Text
