import Mathlib.Data.List.Induction
import Mathlib.Data.Nat.Digits.Defs
import TapeMachine.Text.Numeral

/-!
# Decimal values

A list of digits denotes the sum of its digits, each times the power of ten of its place
(`ofDigits_eq_decimal`). It can be added up in words, digit by digit: a sum that does not fit is
never made up for by the digits behind it, so the reader may give up at once, and what it gives up
are the numerals beyond the limit, however many zeros they begin with (`addUp_eq_count?`,
`addUpSigned_eq`).
-/

namespace TapeMachine.Text

/-- The decimal value of a list of digits, the last of which counts once. -/
def decimal (ds : List Char) : Nat :=
  Nat.ofDigits 10 (ds.reverse.map fun d ↦ d.toNat - '0'.toNat)

/-- A digit at the end adds its value to ten times the value before it. -/
theorem decimal_concat (ds : List Char) (d : Char) :
    decimal (ds ++ [d]) = 10 * decimal ds + (d.toNat - '0'.toNat) := by
  rw [decimal, List.reverse_concat, List.map_cons, Nat.ofDigits_cons, Nat.add_comm]
  rfl

/-- Digits denote their decimal value. -/
theorem ofDigits_eq_decimal (ds : List Char) : ofDigits ds = decimal ds := by
  induction ds using List.reverseRecOn with
  | nil => rfl
  | append_singleton ds d ih => rw [ofDigits_concat, decimal_concat, ih]

/-- Zeros in front do not count. -/
theorem decimal_zeros (n : Nat) (ds : List Char) :
    decimal (List.replicate n '0' ++ ds) = decimal ds := by
  induction ds using List.reverseRecOn with
  | nil =>
    induction n with
    | zero => rfl
    | succ n ih =>
      rw [List.append_nil] at ih
      rw [List.append_nil, List.replicate_succ', decimal_concat, ih]
      rfl
  | append_singleton ds d ih => rw [← List.append_assoc, decimal_concat, decimal_concat, ih]

/-! ### Sums in words -/

section

variable {σ α : Type}

/-- A fold that is given up at the first value that does not fit. -/
def foldWhile (fits : σ → Prop) [DecidablePred fits] (add : σ → α → σ) (s : σ) (as : List α) :
    Option σ :=
  as.foldlM (fun s a ↦ if fits (add s a) then some (add s a) else none) s

/-- If no value that fits comes after one that does not, it is enough to look at the last. -/
theorem foldWhile_eq (fits : σ → Prop) [DecidablePred fits] {add : σ → α → σ}
    (hadd : ∀ s a, fits (add s a) → fits s) {s : σ} (hs : fits s) (as : List α) :
    foldWhile fits add s as = if fits (as.foldl add s) then some (as.foldl add s) else none := by
  have hlast (s : σ) (as : List α) (h : fits (as.foldl add s)) : fits s := by
    induction as generalizing s with
    | nil => exact h
    | cons a as ih => exact hadd s a (ih (add s a) h)
  induction as generalizing s with
  | nil => exact (if_pos hs).symm
  | cons a as ih =>
    rw [foldWhile, List.foldlM_cons, List.foldl_cons]
    by_cases ha : fits (add s a)
    · rw [if_pos ha]
      exact ih ha
    · rw [if_neg ha, if_neg fun h ↦ ha (hlast _ as h)]
      rfl

end

/-- A count added up in words, digit by digit. -/
def addUp (ds : List Char) : Option Nat :=
  foldWhile (· ≤ maxCount) (fun n d ↦ 10 * n + (d.toNat - '0'.toNat)) 0 ds

/-- A count that is added up in words is the one that the digits denote, if there is one. -/
theorem addUp_eq_count? (ds : List Char) : addUp ds = count? ds :=
  foldWhile_eq (· ≤ maxCount) (fun n d h ↦ by omega) (Nat.zero_le _) ds

/-- A signed number added up in words, digit by digit: upwards, or downwards with a minus sign. Only
the limit in this direction is looked at. -/
def addUpSigned (negative : Bool) (ds : List Char) : Option Int :=
  if negative then
    foldWhile (minPosition ≤ ·) (fun n d ↦ 10 * n - (d.toNat - '0'.toNat : Nat)) 0 ds
  else foldWhile (· ≤ maxPosition) (fun n d ↦ 10 * n + (d.toNat - '0'.toNat : Nat)) 0 ds

theorem foldl_signed (negative : Bool) (ds : List Char) :
    ds.foldl (fun (n : Int) d ↦ if negative then 10 * n - (d.toNat - '0'.toNat : Nat)
      else 10 * n + (d.toNat - '0'.toNat : Nat)) 0 = signed negative ds := by
  induction ds using List.reverseRecOn with
  | nil => cases negative <;> rfl
  | append_singleton ds d ih =>
    rw [List.foldl_append, ih, List.foldl_cons, List.foldl_nil, signed, signed, ofDigits_concat]
    cases negative with
    | true =>
      simp only [if_true]
      omega
    | false =>
      simp only [Bool.false_eq_true, if_false]
      omega

/-- A signed number that is added up in words is the one that the digits denote, unless that is
beyond the limits. -/
theorem addUpSigned_eq (negative : Bool) (ds : List Char) :
    addUpSigned negative ds =
      if minPosition ≤ signed negative ds ∧ signed negative ds ≤ maxPosition then
        some (signed negative ds) else none := by
  have hvalue := foldl_signed negative ds
  have hlow : minPosition ≤ 0 := by decide
  have hhigh : 0 ≤ maxPosition := by decide
  cases negative with
  | true =>
    have hother : signed true ds ≤ maxPosition := by
      rw [signed, if_pos rfl]
      omega
    simp only [if_true] at hvalue
    rw [addUpSigned, if_pos rfl, foldWhile_eq (minPosition ≤ ·) (fun n d h ↦ by omega) hlow, hvalue]
    simp only [hother, and_true]
  | false =>
    have hother : minPosition ≤ signed false ds := by
      rw [signed, if_neg Bool.false_ne_true]
      omega
    simp only [Bool.false_eq_true, if_false] at hvalue
    rw [addUpSigned, if_neg Bool.false_ne_true,
      foldWhile_eq (· ≤ maxPosition) (fun n d h ↦ by omega) hhigh, hvalue]
    simp only [hother, true_and]

end TapeMachine.Text
