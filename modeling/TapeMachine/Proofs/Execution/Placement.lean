import TapeMachine.Proofs.Execution.Run

/-!
# Runs on a part of a tape

A round reads and writes the cell under the head and looks no further than one cell beside it. So a
run on a tape goes the same way on any longer tape that the tape is a part of
(`iterate_step_placed`), until the head leaves the part; there the run on the longer tape goes on
(`Round.placed_across`).
-/

namespace TapeMachine

/-! ### Longer tapes -/

/-- The tape with others before and behind it. -/
def Tape.between (t left right : Tape) : Tape := ofList (left.toList ++ t.toList ++ right.toList)

namespace Tape

variable {t left right : Tape}

/-- The cells of a longer tape. -/
@[simp] theorem toList_between :
    (t.between left right).toList = left.toList ++ t.toList ++ right.toList := rfl

/-- The number of cells of a longer tape. -/
@[simp] theorem size_between :
    (t.between left right).size = left.size + t.size + right.size := by
  rw [← length_toList, toList_between, List.length_append, List.length_append, length_toList,
    length_toList, length_toList]

/-- A position on the part is one on the longer tape. -/
theorem Covers.between {position : Int} (h : t.Covers position) :
    (t.between left right).Covers (left.size + position) := by
  obtain ⟨h0, hlt⟩ := h
  rw [Covers, size_between]
  omega

/-- The longer tape holds what the part holds. -/
theorem getElem?_between {i : Nat} {s : Symbol} (h : t.toList[i]? = some s) :
    (t.between left right).toList[left.size + i]? = some s := by
  obtain ⟨hi, rfl⟩ := List.getElem?_eq_some_iff.mp h
  have hl : left.toList.length = left.size := left.length_toList
  rw [toList_between, List.append_assoc, List.getElem?_append_right (by omega),
    List.getElem?_append_left (by omega), hl, Nat.add_sub_cancel_left]
  exact h

/-- Overwriting a cell of the part overwrites the cell of the longer tape. -/
theorem overwrite_between {i : Nat} (hi : i < t.size) (s : Symbol) :
    (t.between left right).overwrite (left.size + i) s = (t.overwrite i s).between left right := by
  have hl : left.toList.length = left.size := left.length_toList
  have ht : t.toList.length = t.size := t.length_toList
  apply ext_toList
  rw [toList_overwrite, toList_between, toList_between, toList_overwrite, List.append_assoc,
    List.append_assoc, List.set_append_right _ _ (by omega), List.set_append_left _ _ (by omega),
    hl, Nat.add_sub_cancel_left]

end Tape

/-! ### Runs on longer tapes -/

/-- The execution on a longer tape. -/
def Execution.placed (e : Execution) (left right : Tape) : Execution :=
  { e with tape := e.tape.between left right, head := left.size + e.head }

/-- The outcome on a longer tape. -/
def Outcome.placed (o : Outcome) (left right : Tape) : Outcome :=
  { o with tape := o.tape.between left right, head := left.size + o.head }

namespace Execution

variable {e : Execution} {left right : Tape}

/-- The head reads the same symbol on a longer tape. -/
theorem Reads.placed {i : Nat} {s : Symbol} (h : e.Reads i s) :
    (e.placed left right).Reads (left.size + i) s := by
  constructor
  · show (left.size : Int) + e.head = ((left.size + i : Nat) : Int)
    rw [h.head_eq]
    omega
  · exact Tape.getElem?_between h.cell_eq

/-- The outcome on a longer tape is that of the run on it. -/
theorem outcome?_placed :
    (e.placed left right).outcome? = e.outcome?.map (·.placed left right) := by
  rw [outcome?, outcome?, Option.map_map]
  rfl

end Execution

namespace Machine

variable {m : Machine} {left right : Tape}

/-- A round that does not leave the part goes the same way on the longer tape. -/
theorem Round.placed {e e' : Execution} (h : m.Round e e')
    (hin : ∀ position, e'.halt ≠ some (.outOfBounds position)) :
    m.Round (e.placed left right) (e'.placed left right) := by
  cases h with
  | stopped hh => exact .stopped hh
  | outside hn hc => exact absurd rfl (hin e.head)
  | undefined hn hr ht => exact .undefined hn hr.placed ht
  | accepted hn hr ht ha =>
    have hround := Round.accepted (e := e.placed left right) hn hr.placed ht ha
    rw [Execution.placed, Tape.overwrite_between hr.lt_size] at hround
    exact hround
  | rejected hn hr ht ha =>
    have hround := Round.rejected (e := e.placed left right) hn hr.placed ht ha
    rw [Execution.placed, Tape.overwrite_between hr.lt_size] at hround
    exact hround
  | moved hn hr ht hd hc =>
    have hon : (e.tape.between left right).Covers (left.size + (e.head + _)) := hc.between
    rw [← Int.add_assoc] at hon
    have hround := Round.moved (e := e.placed left right) hn hr.placed ht hd hon
    rw [Execution.placed, Tape.overwrite_between hr.lt_size, Int.add_assoc] at hround
    exact hround
  | left hn hr ht hd hc => exact absurd rfl (hin _)

/-- A round that leaves the part is a move, which goes on in the longer tape if that has a cell
there. -/
theorem Round.placed_across {e e' : Execution} {position : Int} (h : m.Round e e')
    (hn : e.halt = none) (hc : e.tape.Covers e.head)
    (hx : e'.halt = some (.outOfBounds position))
    (hon : (e'.tape.between left right).Covers (left.size + position)) :
    e'.steps = e.steps + 1 ∧ m.Round (e.placed left right)
      ⟨e'.state, e'.tape.between left right, left.size + position, e'.steps, none⟩ := by
  cases h with
  | stopped hh =>
    rw [hn] at hh
    cases hh
  | outside _ hoff => exact absurd hc hoff
  | undefined => cases hx
  | accepted => cases hx
  | rejected => cases hx
  | moved => cases hx
  | left _ hr ht hd _ =>
    obtain rfl : _ = position := by simpa using hx
    rw [← Tape.overwrite_between hr.lt_size, Tape.covers_overwrite, ← Int.add_assoc] at hon
    have hround := Round.moved (e := e.placed left right) hn hr.placed ht hd hon
    rw [Execution.placed, Tape.overwrite_between hr.lt_size, Int.add_assoc] at hround
    exact ⟨rfl, hround⟩

/-- A round keeps the head on the tape. -/
theorem Round.covers {e e' : Execution} (h : m.Round e e') (hc : e.tape.Covers e.head) :
    e'.tape.Covers e'.head := by
  cases h with
  | stopped => exact hc
  | outside => exact hc
  | undefined => exact hc
  | accepted => exact Tape.covers_overwrite.mpr hc
  | rejected => exact Tape.covers_overwrite.mpr hc
  | moved _ _ _ _ hon => exact Tape.covers_overwrite.mpr hon
  | left => exact Tape.covers_overwrite.mpr hc

/-- A run that begins on its tape keeps its head there. -/
theorem covers_iterate_step {e : Execution} (hc : e.tape.Covers e.head) (k : Nat) :
    (m.step^[k] e).tape.Covers (m.step^[k] e).head :=
  Function.Iterate.rec (fun e ↦ e.tape.Covers e.head) hc (fun e h ↦ (m.round_step e).covers h) k

/-- A run that has not left the part goes the same way on the longer tape. -/
theorem iterate_step_placed {e : Execution} {k : Nat}
    (hin : ∀ position, (m.step^[k] e).halt ≠ some (.outOfBounds position)) :
    m.step^[k] (e.placed left right) = (m.step^[k] e).placed left right := by
  induction k with
  | zero => rfl
  | succ k ih =>
    have hbefore : ∀ position, (m.step^[k] e).halt ≠ some (.outOfBounds position) := by
      intro position hx
      have hh : (m.step^[k] e).isHalted = true := by simp [Execution.isHalted, hx]
      apply hin position
      rw [iterate_step_add_of_isHalted hh 1, hx]
    rw [Function.iterate_succ_apply', Function.iterate_succ_apply', ih hbefore]
    rw [Function.iterate_succ_apply'] at hin
    exact ((m.round_step _).placed hin).eq_step.symm

/-- A run that leaves the part goes on, on a longer tape that has a cell there, after as many moves,
in the state that was entered. -/
theorem iterate_step_placed_across {e : Execution} (hs : e.steps = 0) (hn : e.halt = none)
    (hc : e.tape.Covers e.head) {k : Nat} {position : Int}
    (hx : (m.step^[k] e).halt = some (.outOfBounds position))
    (hon : ((m.step^[k] e).tape.between left right).Covers (left.size + position)) :
    m.step^[(m.step^[k] e).steps] (e.placed left right) =
      ⟨(m.step^[k] e).state, (m.step^[k] e).tape.between left right, left.size + position,
        (m.step^[k] e).steps, none⟩ := by
  induction k with
  | zero =>
    rw [Function.iterate_zero_apply, hn] at hx
    cases hx
  | succ k ih =>
    by_cases hh : (m.step^[k] e).isHalted = true
    · rw [iterate_step_add_of_isHalted hh 1] at hx hon ⊢
      exact ih hx hon
    · have hgo : (m.step^[k] e).isHalted = false := by simpa using hh
      have hnone : (m.step^[k] e).halt = none := by simpa [Execution.isHalted] using hgo
      have hbefore : m.step^[k] (e.placed left right) = (m.step^[k] e).placed left right := by
        apply iterate_step_placed
        simp [hnone]
      rw [Function.iterate_succ_apply'] at hx hon ⊢
      obtain ⟨hsteps, hround⟩ := (m.round_step (m.step^[k] e)).placed_across hnone
        (covers_iterate_step hc k) hx hon
      have hcount : (m.step (m.step^[k] e)).steps = k + 1 := by
        rw [hsteps, steps_iterate_of_not_isHalted hgo, hs, Nat.zero_add]
      rw [hround.eq_step, hcount, Function.iterate_succ_apply', hbefore]

end Machine

/-- The run on a part of a tape and the run on the whole, from the same cell. As long as the run on
the part has not left it, the run on the whole has the same state, count and halt, the tape with the
other cells as they were, and the head in the same cell. If the run on the part leaves it to where
the whole has a cell, the run on the whole goes on from there, after as many moves and in the state
that was entered. So every outcome but that of leaving the part carries over. -/
theorem run_on_part (m : Machine) {tape : Tape} {head : Int} (hc : tape.Covers head)
    (left right : Tape) :
    let part k := m.step^[k] (m.launch tape head)
    let whole k := m.step^[k] (m.launch (tape.between left right) (left.size + head))
    (∀ k, (∀ position, (part k).halt ≠ some (.outOfBounds position)) →
      whole k = (part k).placed left right) ∧
    (∀ k position, (part k).halt = some (.outOfBounds position) →
      (tape.between left right).Covers (left.size + position) →
      whole (part k).steps = ⟨(part k).state, (part k).tape.between left right,
        left.size + position, (part k).steps, none⟩) ∧
    (∀ o, m.run tape head = some o → (∀ position, o.halt ≠ .outOfBounds position) →
      m.run (tape.between left right) (left.size + head) = some (o.placed left right)) := by
  intro part whole
  refine ⟨fun k hin ↦ Machine.iterate_step_placed hin, ?_, ?_⟩
  · intro k position hx hon
    apply Machine.iterate_step_placed_across rfl rfl hc hx
    have hsize : (part k).tape.size = tape.size :=
      (m.onCourse_iterate_step tape head k).size_eq
    rw [Tape.Covers, Tape.size_between] at hon ⊢
    rw [hsize]
    exact hon
  · intro o ho hin
    obtain ⟨last, ⟨k, rfl, hk⟩, hlast⟩ := Machine.run_eq_some_iff.mp ho
    have hx := Execution.outcome?_eq_some_iff.mp hlast
    have hsame : whole k = (part k).placed left right := by
      refine Machine.iterate_step_placed (e := m.launch tape head) ?_
      rw [hx]
      simpa using hin
    refine Machine.run_eq_some_iff.mpr ⟨whole k, ⟨k, rfl, ?_⟩, ?_⟩
    · rw [hsame]
      exact hk
    · rw [hsame, Execution.outcome?_placed, hlast]
      rfl

/-- The shuttle finds no rule on `a#`, nor on `#a#b` from the same cell; it leaves `a`, and goes on
where `a` stands in `#ab`. -/
theorem run_on_part_shuttle :
    let a : Symbol := ⟨'a', rfl⟩
    let b : Symbol := ⟨'b', rfl⟩
    let mark : Symbol := ⟨'#', rfl⟩
    let o : Outcome := ⟨.undefined ⟨1⟩ mark, ⟨1⟩, ⟨#[a, mark]⟩, 1, 1⟩
    (Tape.Covers ⟨#[a, mark]⟩ 0 ∧ Machine.shuttle.run ⟨#[a, mark]⟩ 0 = some o ∧
      Machine.shuttle.run ⟨#[mark, a, mark, b]⟩ 1 =
        some ⟨.undefined ⟨1⟩ mark, ⟨1⟩, ⟨#[mark, a, mark, b]⟩, 2, 1⟩) ∧
    (Tape.Covers ⟨#[a]⟩ 0 ∧
      (Machine.shuttle.step^[1] (Machine.shuttle.launch ⟨#[a]⟩ 0)).halt = some (.outOfBounds 1) ∧
      Machine.shuttle.step^[1] (Machine.shuttle.launch ⟨#[mark, a, b]⟩ 1) =
        ⟨⟨1⟩, ⟨#[mark, a, b]⟩, 2, 1, none⟩) := by
  intro a b mark o
  have hcovers : Tape.Covers ⟨#[a, mark]⟩ 0 := ⟨by decide, by decide⟩
  have hcovers' : Tape.Covers ⟨#[a]⟩ 0 := ⟨by decide, by decide⟩
  have hrun : Machine.shuttle.run ⟨#[a, mark]⟩ 0 = some o := by decide
  have hleft : (Machine.shuttle.step^[1] (Machine.shuttle.launch ⟨#[a]⟩ 0)).halt =
      some (.outOfBounds 1) := by decide
  obtain ⟨-, -, hout⟩ := run_on_part Machine.shuttle hcovers ⟨#[mark]⟩ ⟨#[b]⟩
  obtain ⟨-, hacross, -⟩ := run_on_part Machine.shuttle hcovers' ⟨#[mark]⟩ ⟨#[b]⟩
  refine ⟨⟨hcovers, hrun, ?_⟩, hcovers', hleft, ?_⟩
  · refine hout o hrun fun position h ↦ ?_
    cases h
  · have hlast : Machine.shuttle.step^[1] (Machine.shuttle.launch ⟨#[a]⟩ 0) =
        ⟨⟨1⟩, ⟨#[a]⟩, 0, 1, some (.outOfBounds 1)⟩ := by decide
    have hon : (Tape.between ⟨#[a]⟩ ⟨#[mark]⟩ ⟨#[b]⟩).Covers 2 := ⟨by decide, by decide⟩
    have hgo := hacross 1 1 hleft hon
    simp only [hlast] at hgo
    exact hgo

end TapeMachine
