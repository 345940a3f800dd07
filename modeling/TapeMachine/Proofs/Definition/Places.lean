import TapeMachine.Proofs.Definition.Layout
import TapeMachine.Proofs.Definition.RoundTrip
import TapeMachine.Proofs.Peg.Indifference

/-!
# Places of sections

The places of a text at which the reader of definition files looks for a section (`LooksAt`): the
first lies behind the line breaks at the start, and from the place of a section the next one lies
behind the section and its line breaks. The list of sections goes on from place to place
(`scanMany_eq_resume`), and the end of the file is looked for where it stops (`read_file_eq`).
-/

namespace TapeMachine.Definition

open Peg (Cursor Misses Reply)

variable {α β : Type} {text : List Char} {pos mid : Nat} {c next : Cursor}

/-! ### Gaps -/

/-- Behind a gap there is no other. -/
theorem outcome_gap_of_gap (h : Grammar.gap.outcome c = some ((), next)) :
    Grammar.gap.outcome next = some ((), next) := by
  obtain ⟨mid, hmid, hrest⟩ := outcome_gap c
  obtain rfl := (Prod.mk.inj (Option.some.inj (hmid.symm.trans h))).2
  obtain ⟨last, hlast, hstays⟩ := outcome_gap mid
  rw [hrest, skipGap_skipGap, ← hrest] at hstays
  obtain ⟨w, hw, -⟩ := Peg.outcome_passes hlast
  rw [hlast, hw.eq_of_rest_eq hstays]

/-! ### Places -/

/-- What stands before the first section: gaps and line breaks. -/
def opening : Grammar.Expr (List Unit × Unit) :=
  Grammar.gap.right ((Grammar.list Grammar.lineBreak).seq Grammar.gap)

/-- The reader looks for a section at this place, unless it stops before. -/
inductive LooksAt (text : List Char) : Nat → Prop
  | first {x : List Unit × Unit} {pos : Nat} :
      opening.outcome (.atPos text 0) = some (x, .atPos text pos) → LooksAt text pos
  | next {s : Located Section} {pos mid next : Nat} : LooksAt text pos →
      sectionBlock.outcome (.atPos text pos) = some (s, .atPos text mid) →
      Grammar.gap.outcome (.atPos text mid) = some ((), .atPos text next) → LooksAt text next

/-- A section at this place is looked for, or the reader has stopped before, at a place where there
is no section. -/
def OpensSection (text : List Char) (pos : Nat) : Prop :=
  ∃ q ≤ pos, LooksAt text q ∧ (q = pos ∨ Grammar.anySection.outcome (.atPos text q) = none)

/-- Behind the place where a section is looked for there is no gap. -/
theorem LooksAt.outcome_gap (h : LooksAt text pos) :
    Grammar.gap.outcome (.atPos text pos) = some ((), .atPos text pos) := by
  cases h with
  | @first x _ ho =>
    obtain ⟨gapEnd, hgap, -⟩ := Definition.outcome_gap (.atPos text 0)
    rw [opening, Peg.outcome_right_of_some hgap, Peg.outcome, Option.bind_eq_some_iff] at ho
    obtain ⟨⟨breaks, mid⟩, -, ho⟩ := ho
    obtain ⟨⟨u, last⟩, hlast, heq⟩ := Option.map_eq_some_iff.mp ho
    obtain rfl := (Prod.mk.inj heq).2
    exact outcome_gap_of_gap hlast
  | next _ _ hgap => exact outcome_gap_of_gap hgap

/-! ### From place to place -/

variable {rounds n : Nat} {held : List (Located Section)} {m m' : Misses RuleName}

/-- Goes on with the list of sections from a place where one is looked for; if there is none, the
list ends at `mid`. -/
def resume (text : List Char) (rounds n : Nat) (held : List (Located Section)) (mid pos : Nat)
    (m : Misses RuleName) : Reply RuleName (List (Located Section)) :=
  match sectionBlock.scan rounds (.atPos text pos) m with
  | .matched a next m =>
    Peg.scanMany ((Grammar.gap.right sectionBlock).scan rounds) n (a :: held) next m
  | .refused m => .matched held.reverse (.atPos text mid) m

/-- A further round of the list goes on from the place behind the gap. -/
theorem scanMany_eq_resume
    (h : Grammar.gap.scan rounds (.atPos text mid) m = .matched () (.atPos text pos) m') :
    Peg.scanMany ((Grammar.gap.right sectionBlock).scan rounds) (n + 1) held (.atPos text mid) m =
      resume text rounds n held mid pos m' := by
  rw [Peg.scanMany, Peg.scan_right_of_matched h, resume]
  cases sectionBlock.scan rounds (.atPos text pos) m' <;> rfl

/-- What a repetition has read before stands before what it reads. -/
theorem exists_scanMany {ρ : Type} (one : Cursor → Misses ρ → Reply ρ α) (n : Nat) (c : Cursor)
    (m : Misses ρ) : ∃ as last m', ∀ held : List α,
      Peg.scanMany one n held c m = .matched (held.reverse ++ as) last m' := by
  induction n generalizing c m with
  | zero => exact ⟨[], c, m, fun held ↦ by rw [Peg.scanMany, List.append_nil]⟩
  | succ n ih =>
    simp only [Peg.scanMany]
    cases one c m with
    | matched a next m' =>
      obtain ⟨as, last, m'', h⟩ := ih next m'
      exact ⟨a :: as, last, m'', fun held ↦ by simp [h]⟩
    | refused m' => exact ⟨[], c, m', fun held ↦ by simp⟩

/-- The list of sections begins at a place where one is looked for. -/
theorem scan_list_eq_resume : (Grammar.list sectionBlock).scan rounds (.atPos text pos) m =
    resume text rounds rounds [] pos pos m := by
  simp only [Grammar.list, Peg.scan, resume]
  cases sectionBlock.scan rounds (.atPos text pos) m with
  | refused m => rfl
  | matched a next m =>
    obtain ⟨as, last, m', h⟩ :=
      exists_scanMany ((Grammar.gap.right sectionBlock).scan rounds) rounds next m
    simp only [h]
    rfl

/-- The sections of a file and its end. -/
def body : Grammar.Expr (List (Located Section) × Located Unit) :=
  Grammar.pair (Grammar.list sectionBlock) (.rule .endOfInput .ends)

/-- What is read of a file when the reply for its sections and its end is known. -/
def fileOf : Reply RuleName (List (Located Section) × Located Unit) →
    Except (Misses RuleName) (List (Located Section))
  | .matched r _ _ => .ok r.1
  | .refused m => .error (m.add .program 0 0)

/-- A file is read from the first place where a section is looked for. -/
theorem read_file_eq {x : List Unit × Unit}
    (h : opening.scan (text.length + 1) (.atPos text 0) Misses.none =
      .matched x (.atPos text pos) m) :
    Grammar.file.read text = fileOf (body.scan (text.length + 1) (.atPos text pos) m) := by
  obtain ⟨u, c₁, m₁, hgap, h⟩ := Peg.exists_of_scan_right h
  obtain ⟨c₂, m₂, hbreaks, hgap'⟩ := Peg.exists_of_scan_seq h
  have hopened : (Grammar.gap.right (Grammar.pair (Grammar.list Grammar.lineBreak) body)).scan
      (text.length + 1) (.atPos text 0) Misses.none =
        (body.scan (text.length + 1) (.atPos text pos) m).map (Prod.mk x.1) := by
    rw [Peg.scan_right_of_matched hgap, Grammar.pair, Peg.scan_seq_of_matched hbreaks,
      Peg.scan_right_of_matched hgap']
  have hfile : Grammar.file = (Peg.rule .program
      (Grammar.gap.right (Grammar.pair (Grammar.list Grammar.lineBreak) body))).map
        fun r ↦ r.value.2.1 := rfl
  rw [Peg.read, hfile, Peg.scan_map, Peg.scan, Cursor.ofText_eq_atPos, hopened]
  cases body.scan (text.length + 1) (.atPos text pos) m <;> rfl

end TapeMachine.Definition
