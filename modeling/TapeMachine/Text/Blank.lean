import TapeMachine.Text.Ranges

/-!
# Blank and control characters

The two character classes that no tape symbol belongs to, and the removal of blank
characters at both ends of a text.
-/

namespace TapeMachine.Text

/-- The code points with the Unicode property White_Space. -/
def blankRanges : List (Nat × Nat) :=
  [(0x9, 0xD), (0x20, 0x20), (0x85, 0x85), (0xA0, 0xA0), (0x1680, 0x1680), (0x2000, 0x200A),
    (0x2028, 0x2029), (0x202F, 0x202F), (0x205F, 0x205F), (0x3000, 0x3000)]

/-- The code points of the Unicode category Cc. -/
def controlRanges : List (Nat × Nat) := [(0x0, 0x1F), (0x7F, 0x9F)]

/-- A character that takes room without showing a mark. -/
def isBlank (c : Char) : Bool := inRanges blankRanges c.toNat

/-- A control character. -/
def isControl (c : Char) : Bool := inRanges controlRanges c.toNat

/-- White space in the sense of core is blank. -/
theorem isBlank_of_isWhitespace {c : Char} (h : c.isWhitespace = true) : isBlank c = true := by
  simp only [Char.isWhitespace, Bool.or_eq_true, decide_eq_true_eq] at h
  rcases h with ((h | h) | h) | h <;> subst h <;> rfl

/-- The text without the blank characters at its start. -/
def trimStart (cs : List Char) : List Char := cs.dropWhile isBlank

/-- The text without the blank characters at its end. -/
def trimEnd (cs : List Char) : List Char := (cs.reverse.dropWhile isBlank).reverse

/-- The text without the blank characters at both ends. -/
def trim (cs : List Char) : List Char := trimEnd (trimStart cs)

end TapeMachine.Text
