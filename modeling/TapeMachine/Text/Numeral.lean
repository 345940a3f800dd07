/-!
# Decimal numerals

Writing naturals and integers in decimal digits, and the value of a list of digits. Counts and head
positions have limits, which the readers of definition files, of the command line and of JSON share.
-/

namespace TapeMachine

/-- The greatest count of states, of steps, and the greatest state index that can be written down.
-/
def maxCount : Nat := 0xffffffffffffffff

/-- The least head position that can be written down. -/
def minPosition : Int := -0x8000000000000000

/-- The greatest head position that can be written down. -/
def maxPosition : Int := 0x7fffffffffffffff

namespace Text

/-- The decimal digits of a natural number, without leading zeros. -/
def digits (n : Nat) : List Char := Nat.toDigits 10 n

/-- A natural number in decimal digits. -/
def natural (n : Nat) : String := String.ofList (digits n)

/-- An integer in decimal digits, with a minus sign if it is negative. -/
def integer : Int → String
  | .ofNat n => natural n
  | .negSucc n => "-" ++ natural (n + 1)

/-- The number that a list of decimal digits denotes, the most significant digit first. -/
def ofDigits (ds : List Char) : Nat := ds.foldl (fun n d ↦ 10 * n + (d.toNat - '0'.toNat)) 0

/-- A digit at the end adds its value to ten times the number before it. -/
theorem ofDigits_concat (ds : List Char) (d : Char) :
    ofDigits (ds ++ [d]) = 10 * ofDigits ds + (d.toNat - '0'.toNat) := by
  simp [ofDigits]

/-- The number of a non-empty list of digits; nothing else is a numeral. -/
def numeral? (cs : List Char) : Option Nat :=
  if cs ≠ [] ∧ cs.all Char.isDigit then some (ofDigits cs) else none

/-- The count that a list of digits denotes, unless it is greater than every count. -/
def count? (ds : List Char) : Option Nat :=
  if ofDigits ds ≤ maxCount then some (ofDigits ds) else none

/-- The signed number of a list of digits with or without a minus sign before it. -/
def signed (negative : Bool) (ds : List Char) : Int :=
  if negative then -(ofDigits ds : Int) else ofDigits ds

end Text

end TapeMachine
