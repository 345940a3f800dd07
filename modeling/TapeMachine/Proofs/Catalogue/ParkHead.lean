import Mathlib.Order.Bounds.Basic
import TapeMachine.Proofs.Catalogue.Entries
import TapeMachine.Proofs.Execution.Sweep

/-!
# The machine that parks its head

The machine goes to the left over letters and `#`, as far as to another symbol or off the tape.
Behind a left mark it looks at one more cell. What it comes to is told for every tape and every cell
to begin with (`parkHead_halts`).
-/

namespace TapeMachine.Catalogue

open Execution

variable {c x : Symbol} {read left : List Symbol} {tape : Tape} {h n : Nat} {last : Execution}

/-! ### Marks -/

/-- The symbols that are no marks: `a`, `b` and `#`. -/
def IsPlain (s : Symbol) : Prop := s = letterA ∨ s = letterB ∨ s = hash

instance : DecidablePred IsPlain :=
  fun s ↦ inferInstanceAs (Decidable (s = letterA ∨ s = letterB ∨ s = hash))

/-- The positions up to `h` that hold another symbol than `a`, `b` and `#`. -/
def marks (tape : Tape) (h : Nat) : Set Nat :=
  {k | k ≤ h ∧ ∃ c, tape.toList[k]? = some c ∧ ¬IsPlain c}

/-- The cells up to `h`, listed from there to the left. -/
theorem getElem?_of_reverse_take {l : List Symbol} (hh : h < tape.size)
    (hl : (tape.toList.take (h + 1)).reverse = l) {j : Nat} (hj : j ≤ h) :
    tape.toList[j]? = l[h - j]? := by
  have hlength : (tape.toList.take (h + 1)).length = h + 1 := by
    rw [List.length_take, Tape.length_toList]
    omega
  rw [← hl, List.getElem?_reverse (by omega), hlength, List.getElem?_take_of_lt (by omega)]
  congr 1
  omega

/-- There is no mark if the cells up to `h` are plain. -/
theorem marks_eq_empty (hh : h < tape.size) (hl : (tape.toList.take (h + 1)).reverse = read)
    (hread : ∀ s ∈ read, IsPlain s) : marks tape h = ∅ := by
  rw [Set.eq_empty_iff_forall_notMem]
  rintro k ⟨hk, c, hc, hmark⟩
  rw [getElem?_of_reverse_take hh hl hk] at hc
  exact hmark (hread c (List.mem_of_getElem? hc))

/-- The first mark on the way to the left has the greatest position. -/
theorem isGreatest_marks (hh : h < tape.size)
    (hl : (tape.toList.take (h + 1)).reverse = read ++ c :: left) (hread : ∀ s ∈ read, IsPlain s)
    (hc : ¬IsPlain c) :
    h = left.length + read.length ∧ tape.toList[left.length]? = some c ∧
      IsGreatest (marks tape h) left.length := by
  have hlength : h = left.length + read.length := by
    have := congrArg List.length hl
    rw [List.length_reverse, List.length_take, Tape.length_toList, List.length_append,
      List.length_cons] at this
    omega
  have hbehind : h - left.length = read.length := by omega
  have hcell : tape.toList[left.length]? = some c := by
    rw [getElem?_of_reverse_take hh hl (by omega), hbehind,
      List.getElem?_append_right (Nat.le_refl _), Nat.sub_self, List.getElem?_cons_zero]
  refine ⟨hlength, hcell, ⟨by omega, c, hcell, hc⟩, ?_⟩
  rintro k ⟨hk, c', hc', hmark⟩
  by_contra hlt
  rw [getElem?_of_reverse_take hh hl hk, List.getElem?_append_left (by omega)] at hc'
  exact hmark (hread c' (List.mem_of_getElem? hc'))

/-! ### Stages of a run -/

/-- How the machine halts on the symbol behind a left mark. -/
def parkedHalt (s : Symbol) : Halt :=
  if IsPlain s then .accepted else if s = leftMark then .rejected else .undefined ⟨1⟩ s

/-- The machine goes to the left over plain symbols. -/
theorem sweep_parkHead (hread : ∀ s ∈ read, IsPlain s) :
    parkHeadMachine.Sweep .moveLeft ⟨0⟩ read ⟨0⟩ read := by
  induction read with
  | nil => exact .nil _
  | cons s read ih =>
    rw [List.forall_mem_cons] at hread
    have hrule : parkHeadMachine.HasRule ⟨0⟩ s ⟨⟨0⟩, s, .moveLeft⟩ := by
      rw [Machine.hasRule_iff]
      rcases hread.1 with rfl | rfl | rfl <;> decide
    exact .cons hrule (ih hread.2)

/-- The machine has no rule for a mark that is no left mark. -/
theorem haltsOn_mark (hc : ¬IsPlain c) (hne : c ≠ leftMark) :
    parkHeadMachine.HaltsOn ⟨0⟩ c c (.undefined ⟨0⟩ c) := by
  apply Machine.HaltsOn.undefined
  apply not_hasRule_machineOf
  simp only [IsPlain, not_or] at hc
  simp [rule, hc, hne]

/-- The machine turns on a left mark. -/
theorem hasRule_leftMark : parkHeadMachine.HasRule ⟨0⟩ leftMark ⟨⟨1⟩, leftMark, .moveRight⟩ :=
  Machine.hasRule_iff.mpr (by decide)

/-- Behind a left mark the machine halts. -/
theorem haltsOn_parked (x : Symbol) : parkHeadMachine.HaltsOn ⟨1⟩ x x (parkedHalt x) := by
  by_cases hplain : IsPlain x
  · have hrule : parkHeadMachine.HasRule ⟨1⟩ x ⟨⟨1⟩, x, .accept⟩ := by
      rw [Machine.hasRule_iff]
      rcases hplain with rfl | rfl | rfl <;> decide
    rw [parkedHalt, if_pos hplain]
    exact .accepted hrule
  · by_cases hmark : x = leftMark
    · subst hmark
      have hrule : parkHeadMachine.HasRule ⟨1⟩ leftMark ⟨⟨1⟩, leftMark, .reject⟩ :=
        Machine.hasRule_iff.mpr (by decide)
      exact .rejected hrule
    · rw [parkedHalt, if_neg hplain, if_neg hmark]
      apply Machine.HaltsOn.undefined
      apply not_hasRule_machineOf
      simp only [IsPlain, not_or] at hplain
      simp [rule, hplain, hmark]

/-! ### Whole runs -/

/-- A run comes to the end to which it comes after it has gone over plain symbols. -/
theorem endsIn_parkHead (hh : h < tape.size)
    (hl : (tape.toList.take (h + 1)).reverse = read ++ left) (hread : ∀ s ∈ read, IsPlain s)
    (hlast : parkHeadMachine.EndsIn
      (sentLeft ⟨0⟩ left (read.reverse ++ tape.toList.drop (h + 1)) read.length) last) :
    parkHeadMachine.EndsIn (parkHeadMachine.launch tape h) last := by
  rw [Machine.launch_eq_sentLeft hh, hl]
  apply (sweep_parkHead hread).endsIn_left
  rwa [Nat.zero_add]

/-- The tape is what is on the two sides of the place to which a run has come. -/
theorem toList_of_reverse_take (hl : (tape.toList.take (h + 1)).reverse = read ++ left) :
    left.reverse ++ (read.reverse ++ tape.toList.drop (h + 1)) = tape.toList := by
  rw [← List.append_assoc, ← List.reverse_append, ← hl, List.reverse_reverse,
    List.take_append_drop]

/-- Without a mark the machine goes off the left end of the tape. -/
theorem run_parkHead_of_plain (hh : h < tape.size)
    (hl : (tape.toList.take (h + 1)).reverse = read) (hread : ∀ s ∈ read, IsPlain s) :
    parkHeadMachine.run tape h = some ⟨.outOfBounds (-1), ⟨0⟩, tape, 0, h + 1⟩ := by
  have hl' : (tape.toList.take (h + 1)).reverse = read ++ [] := by rw [hl, List.append_nil]
  have hends := endsIn_parkHead hh hl' hread (Machine.endsIn_of_isHalted rfl)
  have htape := toList_of_reverse_take hl'
  have hlength : read.length = h + 1 := by
    rw [← hl, List.length_reverse, List.length_take, Tape.length_toList]
    omega
  refine Machine.run_eq_some_iff.mpr ⟨_, hends, ?_⟩
  rw [List.reverse_nil, List.nil_append] at htape
  rw [sentLeft, htape, hlength, Tape.ofList_toList]
  rfl

/-- On another mark than a left mark the machine halts. -/
theorem run_parkHead_of_mark (hh : h < tape.size)
    (hl : (tape.toList.take (h + 1)).reverse = read ++ c :: left) (hread : ∀ s ∈ read, IsPlain s)
    (hc : ¬IsPlain c) (hne : c ≠ leftMark) :
    parkHeadMachine.run tape h =
      some ⟨.undefined ⟨0⟩ c, ⟨0⟩, tape, left.length, read.length⟩ := by
  have hends := endsIn_parkHead hh hl hread (haltsOn_mark hc hne).endsIn
  have htape := toList_of_reverse_take hl
  rw [List.reverse_cons, List.append_assoc, List.singleton_append] at htape
  refine Machine.run_eq_some_iff.mpr ⟨_, hends, ?_⟩
  simp only [facing, htape, Tape.ofList_toList]
  rfl

/-- On a left mark the machine turns, and halts one cell behind it or goes off the right end. -/
theorem run_parkHead_of_leftMark (hh : h < tape.size)
    (hl : (tape.toList.take (h + 1)).reverse = read ++ leftMark :: left)
    (hread : ∀ s ∈ read, IsPlain s) :
    (left.length + 1 = tape.size → parkHeadMachine.run tape h =
      some ⟨.outOfBounds tape.size, ⟨1⟩, tape, tape.size - 1, read.length + 1⟩) ∧
    ∀ x, tape.toList[left.length + 1]? = some x → parkHeadMachine.run tape h =
      some ⟨parkedHalt x, ⟨1⟩, tape, left.length + 1, read.length + 1⟩ := by
  have hends {last : Execution} (hlast : parkHeadMachine.EndsIn (sentRight ⟨1⟩ (leftMark :: left)
      (read.reverse ++ tape.toList.drop (h + 1)) (read.length + 1)) last) :
      parkHeadMachine.EndsIn (parkHeadMachine.launch tape h) last :=
    endsIn_parkHead hh hl hread (.of_right hasRule_leftMark hlast)
  have htape := toList_of_reverse_take hl
  -- What is behind the mark counts as a list of symbols, wherever the run began.
  generalize read.reverse ++ tape.toList.drop (h + 1) = right at hends htape
  have hsize : left.length + 1 + right.length = tape.size := by
    rw [← Tape.length_toList, ← htape, List.length_append, List.length_reverse, List.length_cons]
  cases right with
  | nil =>
    rw [List.append_nil] at htape
    constructor
    · intro hlast
      refine Machine.run_eq_some_iff.mpr ⟨_, hends (Machine.endsIn_of_isHalted rfl), ?_⟩
      rw [sentRight, htape, Tape.ofList_toList, List.length_cons, hlast]
      rfl
    · intro x hx
      have hlt := (List.getElem?_eq_some_iff.mp hx).1
      rw [Tape.length_toList, ← hsize] at hlt
      exact absurd hlt (Nat.lt_irrefl _)
  | cons y right =>
    constructor
    · intro hlast
      rw [← hlast, List.length_cons] at hsize
      omega
    · intro x hx
      rw [← htape, List.getElem?_append_right (by simp), List.length_reverse, List.length_cons,
        Nat.sub_self, List.getElem?_cons_zero] at hx
      obtain rfl : y = x := Option.some.inj hx
      refine Machine.run_eq_some_iff.mpr ⟨_, hends (haltsOn_parked y).endsIn, ?_⟩
      simp only [facing, htape, Tape.ofList_toList]
      rfl

/-- What the machine does from a cell `h`. Let `k` be the greatest position up to `h` whose symbol
is none of `a`, `b` and `#`. Without such a position the head goes off the left end of the tape.
With another symbol than a left mark at `k`, the machine halts there, since it has no rule. With a
left mark at `k` it halts one cell behind: it accepts on `a`, `b` and `#`, rejects on a second left
mark, and has no rule for other symbols; and the head goes off the right end if there is no such
cell. The tape is left as it is. -/
theorem parkHead_halts : ∃ p, programNamed "Park head" = .ok p ∧ p.name = "Park head" ∧
    ∀ (tape : Tape) (h : Nat), h < tape.size →
      marks tape h = ∅ ∧
        p.machine.run tape h = some ⟨.outOfBounds (-1), ⟨0⟩, tape, 0, h + 1⟩ ∨
      ∃ k c, IsGreatest (marks tape h) k ∧ tape.toList[k]? = some c ∧
        (c ≠ leftMark → p.machine.run tape h = some ⟨.undefined ⟨0⟩ c, ⟨0⟩, tape, k, h - k⟩) ∧
        (c = leftMark → k + 1 = tape.size → p.machine.run tape h =
          some ⟨.outOfBounds tape.size, ⟨1⟩, tape, tape.size - 1, h - k + 1⟩) ∧
        (c = leftMark → ∀ x, tape.toList[k + 1]? = some x → p.machine.run tape h =
          some ⟨parkedHalt x, ⟨1⟩, tape, k + 1, h - k + 1⟩) := by
  have hfind : machines.find? (fun n ↦ sameName n.1 "Park head") =
      some ("Park head", parkHeadMachine) := by decide
  obtain ⟨p, hp, hname, hm⟩ := exists_programNamed hfind
  refine ⟨p, hp, hname, fun tape h hh ↦ ?_⟩
  rw [hm]
  obtain ⟨read, left, hl, hread, hleft⟩ :=
    Machine.exists_stretch IsPlain (tape.toList.take (h + 1)).reverse
  cases left with
  | nil =>
    rw [List.append_nil] at hl
    exact .inl ⟨marks_eq_empty hh hl hread, run_parkHead_of_plain hh hl hread⟩
  | cons c left =>
    have hc : ¬IsPlain c := hleft c rfl
    obtain ⟨hlength, hcell, hgreatest⟩ := isGreatest_marks hh hl hread hc
    have hmoves : h - left.length = read.length := by omega
    refine .inr ⟨left.length, c, hgreatest, hcell, ?_⟩
    rw [hmoves]
    refine ⟨run_parkHead_of_mark hh hl hread hc, ?_, ?_⟩
    · rintro rfl
      exact (run_parkHead_of_leftMark hh hl hread).1
    · rintro rfl
      exact (run_parkHead_of_leftMark hh hl hread).2

/-- The runs from the last cell of `<a`, on which the machine goes back to the mark, and of `a`, on
which it goes off the left end. -/
theorem parkHead_halts_marked :
    let marked : Tape := ⟨#[leftMark, letterA]⟩
    let plain : Tape := ⟨#[letterA]⟩
    (1 < marked.size ∧ IsGreatest (marks marked 1) 0 ∧ marked.toList[0 + 1]? = some letterA) ∧
    (0 < plain.size ∧ marks plain 0 = ∅) ∧
    ∃ p, programNamed "Park head" = .ok p ∧
      p.machine.run marked 1 = some ⟨.accepted, ⟨1⟩, marked, 1, 2⟩ ∧
      p.machine.run plain 0 = some ⟨.outOfBounds (-1), ⟨0⟩, plain, 0, 1⟩ := by
  intro marked plain
  have hmarked : 1 < marked.size := by decide
  have hplain : 0 < plain.size := by decide
  have hread : ∀ s ∈ [letterA], IsPlain s := by simp [IsPlain]
  have hsplit : (marked.toList.take 2).reverse = [letterA] ++ leftMark :: [] := rfl
  have hgreatest : IsGreatest (marks marked 1) 0 :=
    (isGreatest_marks hmarked hsplit hread (by decide)).2.2
  have hempty : marks plain 0 = ∅ := marks_eq_empty hplain rfl hread
  obtain ⟨p, hp, -, h⟩ := parkHead_halts
  refine ⟨⟨hmarked, hgreatest, rfl⟩, ⟨hplain, hempty⟩, p, hp, ?_, ?_⟩
  · rcases h marked 1 hmarked with ⟨hnone, -⟩ | ⟨k, c, hk, hcell, -, -, hturn⟩
    · rw [hnone] at hgreatest
      exact absurd hgreatest.1 (Set.notMem_empty 0)
    · obtain rfl : k = 0 := hk.unique hgreatest
      obtain rfl : leftMark = c := Option.some.inj hcell
      exact hturn rfl letterA rfl
  · rcases h plain 0 hplain with ⟨-, hrun⟩ | ⟨k, c, hk, -⟩
    · exact hrun
    · rw [hempty] at hk
      exact absurd hk.1 (Set.notMem_empty k)

end TapeMachine.Catalogue
