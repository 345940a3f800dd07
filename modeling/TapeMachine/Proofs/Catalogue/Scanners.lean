import Mathlib.Order.Bounds.Basic
import TapeMachine.Proofs.Catalogue.Entries
import TapeMachine.Proofs.Execution.Sweep

/-!
# Scanners

The machine for even numbers of a's and the eraser go to the right over letters, and halt on the
first symbol that is no letter or go off the tape. What they come to is told for every tape and
every cell to begin with (`scanners_decide`).
-/

namespace TapeMachine.Catalogue

variable {c : Symbol} {read rest : List Symbol} {tape : Tape} {h : Nat}

/-! ### Stretches of letters -/

/-- The positions from `h` on that hold no letter. All those behind the tape are among them. -/
def stops (tape : Tape) (h : Nat) : Set Nat :=
  {k | h ≤ k ∧ ∀ s, tape.toList[k]? = some s → ¬IsLetter s}

/-- Letters reach as far as to the least position without one. -/
theorem isLeast_stops (hdrop : tape.toList.drop h = read ++ rest) (hread : ∀ s ∈ read, IsLetter s)
    (hrest : ∀ s, rest.head? = some s → ¬IsLetter s) :
    IsLeast (stops tape h) (h + read.length) := by
  have hcell (j : Nat) : tape.toList[h + j]? = (read ++ rest)[j]? := by
    rw [← hdrop, List.getElem?_drop]
  constructor
  · refine ⟨Nat.le_add_right _ _, fun s hs ↦ hrest s ?_⟩
    rwa [hcell, List.getElem?_append_right (Nat.le_refl _), Nat.sub_self, ← List.head?_eq_getElem?]
      at hs
  · rintro k ⟨hk, hstop⟩
    obtain ⟨j, rfl⟩ := Nat.exists_eq_add_of_le hk
    refine Nat.add_le_add_left (Nat.le_of_not_lt fun hj ↦ ?_) h
    refine hstop read[j] ?_ (hread _ (List.getElem_mem hj))
    rw [hcell, List.getElem?_append_left hj, List.getElem?_eq_getElem hj]

/-! ### Even numbers of a's -/

/-- How the machine for even numbers of a's halts behind so many of them, on a symbol that is no
letter. -/
def evenAsHalt (count : Nat) (c : Symbol) : Halt :=
  if c = hash then if count % 2 = 0 then .accepted else .rejected else .undefined ⟨count % 2⟩ c

/-- The state tells the parity of the a's that have been read. -/
theorem sweep_evenAs (hread : ∀ s ∈ read, IsLetter s) (p : Nat) :
    evenAsMachine.Sweep .moveRight ⟨p % 2⟩ read ⟨(p + read.count letterA) % 2⟩ read := by
  induction read generalizing p with
  | nil => exact .nil _
  | cons s read ih =>
    rw [List.forall_mem_cons] at hread
    rcases hread.1 with rfl | rfl
    · have hrule : evenAsMachine.HasRule ⟨p % 2⟩ letterA ⟨⟨(p + 1) % 2⟩, letterA, .moveRight⟩ := by
        rw [Machine.hasRule_iff]
        rcases Nat.mod_two_eq_zero_or_one p with hp | hp <;>
          rw [hp, Nat.add_mod, hp] <;> decide
      have hcount : p + (letterA :: read).count letterA = p + 1 + read.count letterA := by
        rw [List.count_cons_self]
        omega
      rw [hcount]
      exact .cons hrule (ih hread.2 (p + 1))
    · have hrule : evenAsMachine.HasRule ⟨p % 2⟩ letterB ⟨⟨p % 2⟩, letterB, .moveRight⟩ := by
        rw [Machine.hasRule_iff]
        rcases Nat.mod_two_eq_zero_or_one p with hp | hp <;> rw [hp] <;> decide
      rw [List.count_cons_of_ne (by decide)]
      exact .cons hrule (ih hread.2 p)

/-- On a symbol that is no letter the machine halts. -/
theorem haltsOn_evenAs (hc : ¬IsLetter c) (p : Nat) :
    evenAsMachine.HaltsOn ⟨p % 2⟩ c c (evenAsHalt p c) := by
  by_cases hhash : c = hash
  · subst hhash
    rcases Nat.mod_two_eq_zero_or_one p with hp | hp
    · have hrule : evenAsMachine.HasRule ⟨0⟩ hash ⟨⟨0⟩, hash, .accept⟩ :=
        Machine.hasRule_iff.mpr (by decide)
      simp only [evenAsHalt, hp, if_true]
      exact .accepted hrule
    · have hrule : evenAsMachine.HasRule ⟨1⟩ hash ⟨⟨1⟩, hash, .reject⟩ :=
        Machine.hasRule_iff.mpr (by decide)
      simp only [evenAsHalt, hp, if_true, Nat.one_ne_zero, if_false]
      exact .rejected hrule
  · rw [evenAsHalt, if_neg hhash]
    apply Machine.HaltsOn.undefined
    apply not_hasRule_machineOf
    simp only [IsLetter, not_or] at hc
    simp [rule, hc, hhash]

/-! ### Erasing -/

/-- How the eraser halts on a symbol that is no letter. -/
def eraserHalt (c : Symbol) : Halt := if c = hash then .accepted else .undefined ⟨0⟩ c

/-- The eraser writes `#` for every letter. -/
theorem sweep_eraser (hread : ∀ s ∈ read, IsLetter s) :
    eraserMachine.Sweep .moveRight ⟨0⟩ read ⟨0⟩ (List.replicate read.length hash) := by
  induction read with
  | nil => exact .nil _
  | cons s read ih =>
    rw [List.forall_mem_cons] at hread
    have hrule : eraserMachine.HasRule ⟨0⟩ s ⟨⟨0⟩, hash, .moveRight⟩ := by
      rw [Machine.hasRule_iff]
      rcases hread.1 with rfl | rfl <;> decide
    exact .cons hrule (ih hread.2)

/-- On a symbol that is no letter the eraser halts. -/
theorem haltsOn_eraser (hc : ¬IsLetter c) : eraserMachine.HaltsOn ⟨0⟩ c c (eraserHalt c) := by
  by_cases hhash : c = hash
  · subst hhash
    have hrule : eraserMachine.HasRule ⟨0⟩ hash ⟨⟨0⟩, hash, .accept⟩ :=
      Machine.hasRule_iff.mpr (by decide)
    exact .accepted hrule
  · rw [eraserHalt, if_neg hhash]
    apply Machine.HaltsOn.undefined
    apply not_hasRule_machineOf
    simp only [IsLetter, not_or] at hc
    simp [rule, hc, hhash]

/-! ### Whole scans -/

/-- The machine for even numbers of a's reads the letters from a cell on. -/
theorem run_evenAs (hh : h < tape.size) (hdrop : tape.toList.drop h = read ++ rest)
    (hread : ∀ s ∈ read, IsLetter s) (hrest : ∀ s, rest.head? = some s → ¬IsLetter s) :
    (rest = [] → evenAsMachine.run tape h =
      some ⟨.outOfBounds tape.size, ⟨read.count letterA % 2⟩, tape, tape.size - 1, read.length⟩) ∧
    ∀ c, rest.head? = some c → evenAsMachine.run tape h =
      some ⟨evenAsHalt (read.count letterA) c, ⟨read.count letterA % 2⟩, tape, h + read.length,
        read.length⟩ := by
  have hsweep := sweep_evenAs hread 0
  rw [Nat.zero_add] at hsweep
  constructor
  · rintro rfl
    rw [List.append_nil] at hdrop
    subst hdrop
    rw [hsweep.run_off_right hh, List.take_append_drop, Tape.ofList_toList, List.length_drop,
      Tape.length_toList]
  · intro c hc
    obtain ⟨rest, rfl⟩ := List.head?_eq_some_iff.mp hc
    rw [hsweep.run_right hh hdrop (haltsOn_evenAs (hrest c rfl) _), List.append_assoc, ← hdrop,
      List.take_append_drop, Tape.ofList_toList]

/-- The eraser writes over the letters from a cell on. -/
theorem run_eraser (hh : h < tape.size) (hdrop : tape.toList.drop h = read ++ rest)
    (hread : ∀ s ∈ read, IsLetter s) (hrest : ∀ s, rest.head? = some s → ¬IsLetter s) :
    (rest = [] → eraserMachine.run tape h = some ⟨.outOfBounds tape.size, ⟨0⟩,
      .ofList (tape.toList.take h ++ List.replicate read.length hash ++ rest), tape.size - 1,
        read.length⟩) ∧
    ∀ c, rest.head? = some c → eraserMachine.run tape h = some ⟨eraserHalt c, ⟨0⟩,
      .ofList (tape.toList.take h ++ List.replicate read.length hash ++ rest), h + read.length,
        read.length⟩ := by
  have hsweep := sweep_eraser hread
  constructor
  · rintro rfl
    rw [List.append_nil] at hdrop
    subst hdrop
    rw [List.append_nil, hsweep.run_off_right hh, List.length_drop, Tape.length_toList]
  · intro c hc
    obtain ⟨rest, rfl⟩ := List.head?_eq_some_iff.mp hc
    exact hsweep.run_right hh hdrop (haltsOn_eraser (hrest c rfl))

/-- What the scanners do from a cell `h`. Let `k` be the least position from `h` on that holds no
letter, or the number of cells if there is none, and take the a's before it from `h` on. The machine
for even numbers of a's leaves the tape as it is and ends in the state of their parity; the eraser
writes `#` into the cells from `h` up to `k` and stays in its state. Both make `k - h` moves. On `#`
at `k` the one accepts an even number and rejects an odd one, and the other accepts; on another
symbol neither has a rule; and without a symbol at `k` both go off the tape. -/
theorem scanners_decide : ∃ evenAs eraser,
    (programNamed "Even number of a's" = .ok evenAs ∧ evenAs.name = "Even number of a's") ∧
    (programNamed "Eraser" = .ok eraser ∧ eraser.name = "Eraser") ∧
    ∀ (tape : Tape) (h : Nat), h < tape.size → ∃ k, IsLeast (stops tape h) k ∧ k ≤ tape.size ∧
      let count := ((tape.toList.drop h).take (k - h)).count letterA
      let erased := Tape.ofList
        (tape.toList.take h ++ List.replicate (k - h) hash ++ tape.toList.drop k)
      (k = tape.size →
        evenAs.machine.run tape h =
          some ⟨.outOfBounds tape.size, ⟨count % 2⟩, tape, tape.size - 1, k - h⟩ ∧
        eraser.machine.run tape h =
          some ⟨.outOfBounds tape.size, ⟨0⟩, erased, tape.size - 1, k - h⟩) ∧
      ∀ c, tape.toList[k]? = some c →
        evenAs.machine.run tape h = some ⟨evenAsHalt count c, ⟨count % 2⟩, tape, k, k - h⟩ ∧
        eraser.machine.run tape h = some ⟨eraserHalt c, ⟨0⟩, erased, k, k - h⟩ := by
  have hfind : machines.find? (fun n ↦ sameName n.1 "Even number of a's") =
      some ("Even number of a's", evenAsMachine) := by decide
  have hfind' : machines.find? (fun n ↦ sameName n.1 "Eraser") =
      some ("Eraser", eraserMachine) := by decide
  obtain ⟨evenAs, hp, hname, hm⟩ := exists_programNamed hfind
  obtain ⟨eraser, hp', hname', hm'⟩ := exists_programNamed hfind'
  refine ⟨evenAs, eraser, ⟨hp, hname⟩, ⟨hp', hname'⟩, fun tape h hh ↦ ?_⟩
  rw [hm, hm']
  obtain ⟨read, rest, hdrop, hread, hrest⟩ :=
    Machine.exists_stretch IsLetter (tape.toList.drop h)
  have hlength : read.length + rest.length = tape.size - h := by
    rw [← List.length_append, ← hdrop, List.length_drop, Tape.length_toList]
  have hmoves : h + read.length - h = read.length := Nat.add_sub_cancel_left _ _
  have htake : (tape.toList.drop h).take read.length = read := by rw [hdrop, List.take_left]
  have hdrop' : tape.toList.drop (h + read.length) = rest := by
    rw [← List.drop_drop, hdrop, List.drop_left]
  have hcell : tape.toList[h + read.length]? = rest.head? := by
    rw [← hdrop', List.head?_drop]
  obtain ⟨hoff, hon⟩ := run_evenAs hh hdrop hread hrest
  obtain ⟨hoff', hon'⟩ := run_eraser hh hdrop hread hrest
  refine ⟨h + read.length, isLeast_stops hdrop hread hrest, by omega, ?_⟩
  rw [hmoves, htake, hdrop', hcell]
  refine ⟨fun hk ↦ ?_, fun c hc ↦ ⟨?_, ?_⟩⟩
  · have hnil : rest = [] := List.eq_nil_of_length_eq_zero (by omega)
    exact ⟨hoff hnil, hoff' hnil⟩
  · rw [Int.natCast_add]
    exact hon c hc
  · rw [Int.natCast_add]
    exact hon' c hc

/-- The runs from the second cell of `#ab<`, on which both machines stop at the mark, and from the
first cell of `aa`, on which both go off the tape. -/
theorem scanners_decide_marked :
    let marked : Tape := ⟨#[hash, letterA, letterB, leftMark]⟩
    let bare : Tape := ⟨#[letterA, letterA]⟩
    (1 < marked.size ∧ IsLeast (stops marked 1) 3 ∧ marked.toList[3]? = some leftMark) ∧
    (0 < bare.size ∧ IsLeast (stops bare 0) 2 ∧ 2 = bare.size) ∧
    ∃ evenAs eraser, programNamed "Even number of a's" = .ok evenAs ∧
      programNamed "Eraser" = .ok eraser ∧
      evenAs.machine.run marked 1 = some ⟨.undefined ⟨1⟩ leftMark, ⟨1⟩, marked, 3, 2⟩ ∧
      eraser.machine.run marked 1 =
        some ⟨.undefined ⟨0⟩ leftMark, ⟨0⟩, ⟨#[hash, hash, hash, leftMark]⟩, 3, 2⟩ ∧
      evenAs.machine.run bare 0 = some ⟨.outOfBounds bare.size, ⟨0⟩, bare, bare.size - 1, 2⟩ ∧
      eraser.machine.run bare 0 =
        some ⟨.outOfBounds bare.size, ⟨0⟩, ⟨#[hash, hash]⟩, bare.size - 1, 2⟩ := by
  intro marked bare
  have hmarked : 1 < marked.size := by decide
  have hbare : 0 < bare.size := by decide
  have hsplit : marked.toList.drop 1 = [letterA, letterB] ++ [leftMark] := rfl
  have hsplit' : bare.toList.drop 0 = [letterA, letterA] ++ [] := rfl
  have hleast : IsLeast (stops marked 1) 3 := by
    refine isLeast_stops hsplit (by simp [IsLetter]) fun s hs ↦ ?_
    obtain rfl : leftMark = s := Option.some.inj hs
    decide
  have hleast' : IsLeast (stops bare 0) 2 :=
    isLeast_stops hsplit' (by simp [IsLetter]) fun s hs ↦ by cases hs
  obtain ⟨evenAs, eraser, ⟨hp, -⟩, ⟨hp', -⟩, h⟩ := scanners_decide
  obtain ⟨k, hk, -, -, hon⟩ := h marked 1 hmarked
  obtain ⟨k', hk', -, hoff, -⟩ := h bare 0 hbare
  obtain rfl : k = 3 := hk.unique hleast
  obtain rfl : k' = 2 := hk'.unique hleast'
  obtain ⟨heven, herase⟩ := hon leftMark rfl
  obtain ⟨heven', herase'⟩ := hoff rfl
  have hcount : ((bare.toList.drop 0).take (2 - 0)).count letterA % 2 = 0 := by decide
  rw [hcount] at heven'
  exact ⟨⟨hmarked, hleast, rfl⟩, ⟨hbare, hleast', rfl⟩, evenAs, eraser, hp, hp', heven, herase,
    heven', herase'⟩

end TapeMachine.Catalogue
