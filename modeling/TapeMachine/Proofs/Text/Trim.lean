import Mathlib.Data.List.DropRight
import TapeMachine.Text.Blank

/-!
# Trimmed texts

A text is trimmed if neither its first nor its last character is blank. Removing blanks gives a
trimmed part of the text, and takes nothing else away.
-/

namespace TapeMachine.Text

/-- There is no blank character at either end. -/
structure Trimmed (cs : List Char) : Prop where
  head : ∀ c, cs.head? = some c → isBlank c = false
  last : ∀ c, cs.getLast? = some c → isBlank c = false

private theorem dropWhile_isBlank_of_head {cs : List Char}
    (h : ∀ c, cs.head? = some c → isBlank c = false) : cs.dropWhile isBlank = cs := by
  cases cs with
  | nil => rfl
  | cons c cs =>
    rw [List.dropWhile_cons_of_neg]
    simp [h c rfl]

/-- Blanks behind a trimmed text are removed, and nothing else. -/
theorem trim_append {cs blanks : List Char} (h : Trimmed cs) (hne : cs ≠ [])
    (hb : ∀ c ∈ blanks, isBlank c = true) : trim (cs ++ blanks) = cs := by
  have hstart : trimStart (cs ++ blanks) = cs ++ blanks := by
    apply dropWhile_isBlank_of_head
    intro c hc
    rw [List.head?_append_of_ne_nil _ hne] at hc
    exact h.head c hc
  have hend : (cs.reverse).dropWhile isBlank = cs.reverse := by
    apply dropWhile_isBlank_of_head
    intro c hc
    rw [List.head?_reverse] at hc
    exact h.last c hc
  rw [trim, hstart, trimEnd, List.reverse_append, List.dropWhile_append_of_pos (by simpa using hb),
    hend, List.reverse_reverse]

/-- A trimmed text stays as it is. -/
theorem trim_of_trimmed {cs : List Char} (h : Trimmed cs) : trim cs = cs := by
  by_cases hne : cs = []
  · rw [hne]
    rfl
  · have ht : trim (cs ++ []) = cs := trim_append h hne (by simp)
    rwa [List.append_nil] at ht

/-- Blanks are removed at the start of a text up to its first other character. -/
theorem trimStart_append (cs : List Char) {c : Char} (hc : isBlank c = false) (rest : List Char) :
    trimStart (cs ++ c :: rest) = trimStart cs ++ c :: rest := by
  have hstop : (c :: rest).dropWhile isBlank = c :: rest :=
    List.dropWhile_cons_of_neg (by simp [hc])
  rw [trimStart, trimStart, List.dropWhile_append]
  split
  · next hnil => rw [hstop, List.isEmpty_iff.mp hnil, List.nil_append]
  · rfl

/-- Blanks are removed at the end of a text back to its last other character. -/
theorem trimEnd_append (init : List Char) {c : Char} (hc : isBlank c = false) (cs : List Char) :
    trimEnd (init ++ c :: cs) = init ++ c :: trimEnd cs := by
  have hreverse : (init ++ c :: cs).reverse = cs.reverse ++ c :: init.reverse := by simp
  have hstart := trimStart_append cs.reverse hc init.reverse
  rw [trimStart, trimStart] at hstart
  rw [trimEnd, trimEnd, hreverse, hstart]
  simp

/-- Blanks behind a text are removed at its end. -/
theorem trimEnd_append_blanks (cs : List Char) {blanks : List Char}
    (hb : ∀ c ∈ blanks, isBlank c = true) : trimEnd (cs ++ blanks) = trimEnd cs := by
  rw [trimEnd, trimEnd, List.reverse_append, List.dropWhile_append_of_pos (by simpa using hb)]

/-- Blanks behind a text are removed with it. -/
theorem trim_append_blanks (cs : List Char) {blanks : List Char}
    (hb : ∀ c ∈ blanks, isBlank c = true) : trim (cs ++ blanks) = trim cs := by
  rw [trim, trim, trimStart, trimStart, List.dropWhile_append]
  split
  · next hnil =>
    have hblanks : blanks.dropWhile isBlank = [] := List.dropWhile_eq_nil_iff.mpr hb
    rw [hblanks, List.isEmpty_iff.mp hnil]
  · exact trimEnd_append_blanks _ hb

/-- Blanks in front of a text are removed with it. -/
theorem trim_blanks_append {blanks : List Char} (hb : ∀ c ∈ blanks, isBlank c = true)
    (cs : List Char) : trim (blanks ++ cs) = trim cs := by
  rw [trim, trim, trimStart, trimStart, List.dropWhile_append_of_pos hb]

/-- Nothing is left of a text of blanks, and of no other. -/
theorem trimEnd_eq_nil_iff {cs : List Char} : trimEnd cs = [] ↔ ∀ c ∈ cs, isBlank c = true := by
  simp [trimEnd, List.dropWhile_eq_nil_iff]

/-- What is removed at the end is blank. -/
theorem exists_trimEnd_append (cs : List Char) :
    ∃ blanks, cs = trimEnd cs ++ blanks ∧ ∀ c ∈ blanks, isBlank c = true := by
  refine ⟨cs.rtakeWhile isBlank, List.rdropWhile_append_rtakeWhile.symm, fun c hc ↦ ?_⟩
  exact List.mem_rtakeWhile_imp hc

/-- The end of a text is the end of what is last in it. -/
theorem trimEnd_append_of_ne_nil (cs : List Char) {rest : List Char} (h : trimEnd rest ≠ []) :
    trimEnd (cs ++ rest) = cs ++ trimEnd rest := by
  have hne : (rest.reverse.dropWhile isBlank).isEmpty = false := by
    simpa [trimEnd] using h
  rw [trimEnd, trimEnd, List.reverse_append, List.dropWhile_append, hne, if_neg (by simp),
    List.reverse_append, List.reverse_reverse]

/-- Behind what is left of a text, blanks are removed back to it. -/
theorem trimEnd_trimEnd_append {cs : List Char} (h : trimEnd cs ≠ []) (rest : List Char) :
    trimEnd (trimEnd cs ++ rest) = trimEnd cs ++ trimEnd rest := by
  have hlast := List.rdropWhile_last_not isBlank cs h
  have hsnoc := List.dropLast_concat_getLast h
  rw [← hsnoc, List.append_assoc, List.append_assoc]
  exact trimEnd_append _ (Bool.eq_false_iff.mpr hlast) rest

/-- What is left is a part of the text. -/
theorem trim_infix (cs : List Char) : trim cs <:+: cs := by
  have hend : trimEnd (trimStart cs) <+: trimStart cs := List.rdropWhile_prefix isBlank _
  have hstart : trimStart cs <:+ cs := List.dropWhile_suffix isBlank
  exact hend.isInfix.trans hstart.isInfix

/-- What is left is trimmed. -/
theorem trimmed_trim (cs : List Char) : Trimmed (trim cs) := by
  constructor
  · intro c hc
    obtain ⟨rest, hrest⟩ : trim cs <+: trimStart cs := List.rdropWhile_prefix isBlank _
    have hne : trim cs ≠ [] := by
      intro hnil
      rw [hnil] at hc
      cases hc
    have hhead : (trimStart cs).head? = some c := by
      rw [← hrest, List.head?_append_of_ne_nil _ hne, hc]
    have hnot := List.head?_dropWhile_not isBlank cs
    rw [← trimStart, hhead] at hnot
    exact hnot
  · intro c hc
    have hne : trim cs ≠ [] := by
      intro hnil
      rw [hnil] at hc
      cases hc
    have hnot := List.rdropWhile_last_not isBlank (trimStart cs) hne
    rw [List.getLast?_eq_some_getLast hne, Option.some.injEq] at hc
    rw [← hc]
    exact Bool.eq_false_iff.mpr hnot

end TapeMachine.Text
