import TapeMachine.Text.Numeral

/-!
# Reading numerals back

The digits of a number denote it, and they are found again in front of everything that does not go
on with a digit (`natural_append_inj`, `integer_append_inj`).
-/

namespace TapeMachine.Text

/-- The digits of a number denote it. -/
theorem ofDigits_digits (n : Nat) : ofDigits (digits n) = n := Nat.ofDigitChars_ten_toDigits

/-- The digits of a number are decimal digits. -/
theorem isDigit_of_mem_digits {n : Nat} {d : Char} (h : d ∈ digits n) : d.isDigit = true :=
  Nat.isDigit_of_mem_toDigits (by decide) (by decide) h

/-- The digits of a number begin with a digit. -/
theorem exists_digit (n : Nat) : ∃ d ds, digits n = d :: ds ∧ d.isDigit = true := by
  obtain ⟨d, ds, h⟩ := List.exists_cons_of_ne_nil (Nat.toDigits_ne_nil : digits n ≠ [])
  exact ⟨d, ds, h, isDigit_of_mem_digits (h ▸ List.mem_cons_self)⟩

/-- Decimal digits, and not none of them. -/
structure IsNumeral (ds : List Char) : Prop where
  ne_nil : ds ≠ []
  isDigit : ∀ d ∈ ds, d.isDigit = true

/-- The digits of a number are a numeral. -/
theorem isNumeral_digits (n : Nat) : IsNumeral (digits n) :=
  ⟨Nat.toDigits_ne_nil, fun _ ↦ isDigit_of_mem_digits⟩

/-- Only the digits of zero begin with a zero. -/
theorem eq_zero_of_digits_eq_cons {n : Nat} {ds : List Char} (h : digits n = '0' :: ds) :
    n = 0 := by
  induction n using Nat.strongRecOn generalizing ds with
  | ind n ih =>
    by_cases hn : n < 10
    · have hvalue := ofDigits_digits n
      rw [h] at hvalue
      rw [digits, Nat.toDigits_of_lt_base hn] at h
      rw [← (List.cons.inj h).2] at hvalue
      exact hvalue.symm
    · obtain ⟨d, rest, hrest, -⟩ := exists_digit (n / 10)
      rw [digits, Nat.toDigits_of_base_le (by decide) (by omega), ← digits, hrest,
        List.cons_append] at h
      rw [(List.cons.inj h).1] at hrest
      have hzero := ih (n / 10) (by omega) hrest
      omega

/-- The first character of a text, if it has one, lies outside a class. -/
def StartsOutside (P : Char → Bool) (cs : List Char) : Prop := ∀ c, cs.head? = some c → P c = false

variable {P : Char → Bool} {c : Char} {w w' u v : List Char}

/-- Nothing starts in a class. -/
theorem startsOutside_nil : StartsOutside P [] := by
  intro c hc
  cases hc

/-- A text starts with its first character. -/
theorem startsOutside_cons (h : P c = false) : StartsOutside P (c :: u) := by
  intro d hd
  obtain rfl := Option.some.inj hd
  exact h

/-- Characters of a class are the longest stretch of that class before a text that starts outside.
-/
theorem StartsOutside.takeWhile_append (hu : StartsOutside P u) (hw : ∀ c ∈ w, P c = true) :
    (w ++ u).takeWhile P = w := by
  rw [List.takeWhile_append_of_pos hw]
  cases u with
  | nil => simp
  | cons c u => simp [hu c rfl]

/-- Behind characters of a class there is left what starts outside of it. -/
theorem StartsOutside.dropWhile_append (hu : StartsOutside P u) (hw : ∀ c ∈ w, P c = true) :
    (w ++ u).dropWhile P = u := by
  rw [List.dropWhile_append_of_pos hw]
  cases u with
  | nil => rfl
  | cons c u => simp [hu c rfl]

/-- The longest stretch of a class in front is found in one way only. -/
theorem StartsOutside.append_inj (hu : StartsOutside P u) (hv : StartsOutside P v)
    (hw : ∀ c ∈ w, P c = true) (hw' : ∀ c ∈ w', P c = true) (h : w ++ u = w' ++ v) :
    w = w' ∧ u = v := by
  constructor
  · rw [← hu.takeWhile_append hw, h, hv.takeWhile_append hw']
  · rw [← hu.dropWhile_append hw, h, hv.dropWhile_append hw']

/-- A natural number is found again before a text that does not start with a digit. -/
theorem natural_append_inj {a b : Nat} (hu : StartsOutside Char.isDigit u)
    (hv : StartsOutside Char.isDigit v) (h : (natural a).toList ++ u = (natural b).toList ++ v) :
    a = b ∧ u = v := by
  simp only [natural, String.toList_ofList] at h
  obtain ⟨hab, huv⟩ :=
    hu.append_inj hv (fun _ ↦ isDigit_of_mem_digits) (fun _ ↦ isDigit_of_mem_digits) h
  refine ⟨?_, huv⟩
  rw [← ofDigits_digits a, hab, ofDigits_digits]

/-- A number without a sign does not begin with a minus sign. -/
theorem natural_append_ne_minus (a : Nat) : (natural a).toList ++ u ≠ '-' :: v := by
  obtain ⟨d, ds, hds, hd⟩ := exists_digit a
  intro h
  rw [natural, String.toList_ofList, hds, List.cons_append] at h
  rw [(List.cons.inj h).1] at hd
  exact absurd hd (by decide)

/-- An integer is found again before a text that does not start with a digit. -/
theorem integer_append_inj {a b : Int} (hu : StartsOutside Char.isDigit u)
    (hv : StartsOutside Char.isDigit v) (h : (integer a).toList ++ u = (integer b).toList ++ v) :
    a = b ∧ u = v := by
  have hminus (n : Nat) (u : List Char) :
      (integer (.negSucc n)).toList ++ u = '-' :: ((natural (n + 1)).toList ++ u) := by
    simp [integer]
  cases a with
  | ofNat a =>
    cases b with
    | ofNat b =>
      obtain ⟨rfl, huv⟩ := natural_append_inj hu hv h
      exact ⟨rfl, huv⟩
    | negSucc b =>
      rw [hminus] at h
      exact absurd h (natural_append_ne_minus a)
  | negSucc a =>
    cases b with
    | ofNat b =>
      rw [hminus] at h
      exact absurd h.symm (natural_append_ne_minus b)
    | negSucc b =>
      rw [hminus, hminus] at h
      obtain ⟨hab, huv⟩ := natural_append_inj hu hv (List.cons.inj h).2
      obtain rfl := Nat.succ.inj hab
      exact ⟨rfl, huv⟩

end TapeMachine.Text
