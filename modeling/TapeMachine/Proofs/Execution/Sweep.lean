import Mathlib.Data.List.TakeWhile
import TapeMachine.Proofs.Execution.Run

/-!
# Sweeps

An execution whose head is on the tape is told by the symbol under the head and the symbols on its
two sides, so that a step takes one symbol from the one side to the other. A machine that keeps its
direction sweeps over a stretch of symbols (`Sweep`), until it turns, halts or leaves the tape. The
end of a run is found stage by stage, each one a sweep (`Sweep.endsIn_right`, `Sweep.endsIn_left`)
or a single step.
-/

namespace TapeMachine

namespace Execution

/-- The head is on `s`. The symbols before it are listed from the head to the left, those behind it
to the right. -/
def facing (q : State) (left : List Symbol) (s : Symbol) (right : List Symbol) (steps : Nat) :
    Execution :=
  ⟨q, .ofList (left.reverse ++ s :: right), left.length, steps, none⟩

/-- The head was sent to the right, to the first symbol of `right` or off the tape. -/
def sentRight (q : State) (left : List Symbol) : List Symbol → Nat → Execution
  | s :: right, steps => facing q left s right steps
  | [], steps =>
    ⟨q, .ofList left.reverse, left.length - 1, steps, some (.outOfBounds left.length)⟩

/-- The head was sent to the left, to the first symbol of `left` or off the tape. -/
def sentLeft (q : State) : List Symbol → List Symbol → Nat → Execution
  | s :: left, right, steps => facing q left s right steps
  | [], right, steps => ⟨q, .ofList right, 0, steps, some (.outOfBounds (-1))⟩

variable {q : State} {left right : List Symbol} {s : Symbol} {steps : Nat}

/-- The head reads the symbol that it faces. -/
theorem reads_facing : (facing q left s right steps).Reads left.length s := by
  refine ⟨rfl, ?_⟩
  rw [facing, Tape.toList_ofList, List.getElem?_append_right (by simp), List.length_reverse,
    Nat.sub_self]
  rfl

/-- The tape after a symbol is written under the head. -/
theorem overwrite_facing (w : Symbol) :
    (facing q left s right steps).tape.overwrite left.length w =
      .ofList (left.reverse ++ w :: right) := by
  have hlength : left.reverse.length = left.length := List.length_reverse
  rw [facing, Tape.overwrite, Tape.toList_ofList, List.set_append_right _ _ hlength.le, hlength,
    Nat.sub_self, List.set_cons_zero]

/-- The cells of the tape are those on the two sides and the one under the head. -/
theorem covers_facing {position : Int} : (facing q left s right steps).tape.Covers position ↔
    0 ≤ position ∧ position < left.length + (right.length + 1) := by
  rw [Tape.Covers, ← Tape.length_toList, facing, Tape.toList_ofList, List.length_append,
    List.length_reverse, List.length_cons, Int.natCast_add, Int.natCast_succ]

end Execution

namespace Machine

open Execution

variable {m : Machine} {q q' : State} {left right : List Symbol} {s w : Symbol} {n : Nat}
  {e last : Execution}

/-! ### Single steps -/

/-- A step to the right leaves the written symbol behind on the left. -/
theorem step_right (h : m.HasRule q s ⟨q', w, .moveRight⟩) :
    m.step (facing q left s right n) = sentRight q' (w :: left) right (n + 1) := by
  cases right with
  | nil =>
    have hoff : ¬(facing q left s [] n).tape.Covers (left.length + 1) := by
      rw [covers_facing]
      simp
    have hround : m.Round (facing q left s [] n) _ := .left rfl reads_facing h .right hoff
    rw [← hround.eq_step, overwrite_facing]
    simp [sentRight, facing]
  | cons x right =>
    have hon : (facing q left s (x :: right) n).tape.Covers (left.length + 1) := by
      rw [covers_facing, List.length_cons]
      omega
    have hround : m.Round (facing q left s (x :: right) n) _ :=
      .moved rfl reads_facing h .right hon
    rw [← hround.eq_step, overwrite_facing]
    simp [sentRight, facing]

/-- A step to the left leaves the written symbol behind on the right. -/
theorem step_left (h : m.HasRule q s ⟨q', w, .moveLeft⟩) :
    m.step (facing q left s right n) = sentLeft q' left (w :: right) (n + 1) := by
  cases left with
  | nil =>
    have hoff : ¬(facing q [] s right n).tape.Covers (0 + -1) := by
      rw [covers_facing]
      omega
    have hround : m.Round (facing q [] s right n) _ := .left rfl reads_facing h .left hoff
    rw [← hround.eq_step, overwrite_facing]
    rfl
  | cons x left =>
    have hon : (facing q (x :: left) s right n).tape.Covers ((x :: left).length + -1) := by
      rw [covers_facing, List.length_cons]
      omega
    have hround : m.Round (facing q (x :: left) s right n) _ :=
      .moved rfl reads_facing h .left hon
    rw [← hround.eq_step, overwrite_facing]
    simp [sentLeft, facing]

/-- A run that has stopped is at its end. -/
theorem endsIn_of_isHalted (h : e.isHalted = true) : m.EndsIn e e := ⟨0, rfl, h⟩

/-- A run comes to the end to which it comes after a step. -/
theorem EndsIn.of_step (h : m.EndsIn (m.step e) last) : m.EndsIn e last := by
  obtain ⟨k, hk, hlast⟩ := h
  exact ⟨k + 1, hk, hlast⟩

/-- A run comes to the end to which it comes after a step to the right. -/
theorem EndsIn.of_right (hrule : m.HasRule q s ⟨q', w, .moveRight⟩)
    (h : m.EndsIn (sentRight q' (w :: left) right (n + 1)) last) :
    m.EndsIn (facing q left s right n) last := by
  apply EndsIn.of_step
  rwa [step_right hrule]

/-- A run comes to the end to which it comes after a step to the left. -/
theorem EndsIn.of_left (hrule : m.HasRule q s ⟨q', w, .moveLeft⟩)
    (h : m.EndsIn (sentLeft q' left (w :: right) (n + 1)) last) :
    m.EndsIn (facing q left s right n) last := by
  apply EndsIn.of_step
  rwa [step_left hrule]

/-- The machine halts in a state on a symbol without a move, and leaves `w` in the cell. -/
inductive HaltsOn (m : Machine) (q : State) (s : Symbol) : Symbol → Halt → Prop
  | accepted {q' : State} {w : Symbol} : m.HasRule q s ⟨q', w, .accept⟩ → HaltsOn m q s w .accepted
  | rejected {q' : State} {w : Symbol} : m.HasRule q s ⟨q', w, .reject⟩ → HaltsOn m q s w .rejected
  | undefined : (∀ t, ¬m.HasRule q s t) → HaltsOn m q s s (.undefined q s)

/-- A run is at its end where the machine halts. -/
theorem HaltsOn.endsIn {halt : Halt} (h : m.HaltsOn q s w halt) :
    m.EndsIn (facing q left s right n) { facing q left w right n with halt := some halt } := by
  apply EndsIn.of_step
  cases h with
  | accepted hrule =>
    have hround : m.Round (facing q left s right n) _ := .accepted rfl reads_facing hrule rfl
    rw [← hround.eq_step, overwrite_facing]
    exact endsIn_of_isHalted rfl
  | rejected hrule =>
    have hround : m.Round (facing q left s right n) _ := .rejected rfl reads_facing hrule rfl
    rw [← hround.eq_step, overwrite_facing]
    exact endsIn_of_isHalted rfl
  | undefined hrule =>
    have hround : m.Round (facing q left s right n) _ := .undefined rfl reads_facing hrule
    rw [← hround.eq_step]
    exact endsIn_of_isHalted rfl

/-! ### Sweeps -/

/-- The machine goes over these symbols with the same action again and again, and leaves others in
their cells. -/
inductive Sweep (m : Machine) (a : Action) : State → List Symbol → State → List Symbol → Prop
  | nil (q : State) : Sweep m a q [] q []
  | cons {q q' q'' : State} {s w : Symbol} {read written : List Symbol} :
      m.HasRule q s ⟨q', w, a⟩ → Sweep m a q' read q'' written →
      Sweep m a q (s :: read) q'' (w :: written)

variable {read written : List Symbol}

/-- A sweep writes as many symbols as it reads. -/
theorem Sweep.length_eq {a : Action} (h : m.Sweep a q read q' written) :
    written.length = read.length := by
  induction h with
  | nil q => rfl
  | cons _ _ ih => rw [List.length_cons, List.length_cons, ih]

/-- A list begins with symbols of a kind, up to the first that is of another kind. -/
theorem exists_stretch (P : Symbol → Prop) [DecidablePred P] (l : List Symbol) : ∃ read rest,
    l = read ++ rest ∧ (∀ s ∈ read, P s) ∧ ∀ s, rest.head? = some s → ¬P s := by
  refine ⟨l.takeWhile (P ·), l.dropWhile (P ·), List.takeWhile_append_dropWhile.symm,
    fun s hs ↦ ?_, fun s hs ↦ ?_⟩
  · simpa using List.mem_takeWhile_imp hs
  · have hhead := List.head?_dropWhile_not (fun s ↦ decide (P s)) l
    rw [hs] at hhead
    simpa using hhead

/-- A sweep to the right leaves the written symbols behind on the left. -/
theorem Sweep.endsIn_right (h : m.Sweep .moveRight q read q' written)
    (hlast : m.EndsIn (sentRight q' (written.reverse ++ left) right (n + read.length)) last) :
    m.EndsIn (sentRight q left (read ++ right) n) last := by
  induction h generalizing left n with
  | nil q => exact hlast
  | cons hrule _ ih =>
    apply EndsIn.of_right hrule
    apply ih
    rw [Nat.add_assoc, Nat.add_comm 1]
    simpa using hlast

/-- A sweep to the left leaves the written symbols behind on the right. -/
theorem Sweep.endsIn_left (h : m.Sweep .moveLeft q read q' written)
    (hlast : m.EndsIn (sentLeft q' left (written.reverse ++ right) (n + read.length)) last) :
    m.EndsIn (sentLeft q (read ++ left) right n) last := by
  induction h generalizing right n with
  | nil q => exact hlast
  | cons hrule _ ih =>
    apply EndsIn.of_left hrule
    apply ih
    rw [Nat.add_assoc, Nat.add_comm 1]
    simpa using hlast

/-! ### Whole runs -/

/-- A run begins as if the head had been sent to its cell from the left. -/
theorem launch_eq_sentRight {tape : Tape} {i : Nat} (h : i < tape.size) :
    m.launch tape i =
      sentRight m.start (tape.toList.take i).reverse (tape.toList.drop i) 0 := by
  rw [← Tape.length_toList] at h
  have htape : tape.toList.take i ++ tape.toList[i] :: tape.toList.drop (i + 1) = tape.toList := by
    rw [← List.drop_eq_getElem_cons h, List.take_append_drop]
  rw [List.drop_eq_getElem_cons h, sentRight, facing, List.reverse_reverse, htape,
    List.length_reverse, List.length_take, Nat.min_eq_left h.le, Tape.ofList_toList]
  rfl

/-- A run begins as if the head had been sent to its cell from the right. -/
theorem launch_eq_sentLeft {tape : Tape} {i : Nat} (h : i < tape.size) :
    m.launch tape i =
      sentLeft m.start (tape.toList.take (i + 1)).reverse (tape.toList.drop (i + 1)) 0 := by
  have hlength := tape.length_toList ▸ h
  rw [launch_eq_sentRight h, List.drop_eq_getElem_cons hlength, ← List.take_concat_get' _ _ hlength,
    List.reverse_concat]
  rfl

variable {tape : Tape} {i : Nat}

/-- A run that sweeps to the right as far as to a symbol on which the machine halts. -/
theorem Sweep.run_right (hi : i < tape.size) {c : Symbol} {rest : List Symbol} {halt : Halt}
    (hdrop : tape.toList.drop i = read ++ c :: rest)
    (hsweep : m.Sweep .moveRight m.start read q written) (hhalts : m.HaltsOn q c w halt) :
    m.run tape i = some ⟨halt, q, .ofList (tape.toList.take i ++ written ++ w :: rest),
      i + read.length, read.length⟩ := by
  have hends : m.EndsIn (m.launch tape i)
      { facing q (written.reverse ++ (tape.toList.take i).reverse) w rest (0 + read.length) with
        halt := some halt } := by
    rw [launch_eq_sentRight hi, hdrop]
    exact hsweep.endsIn_right hhalts.endsIn
  have hhead : (written.reverse ++ (tape.toList.take i).reverse).length = i + read.length := by
    rw [← Tape.length_toList] at hi
    rw [List.length_append, List.length_reverse, List.length_reverse, hsweep.length_eq,
      List.length_take, Nat.min_eq_left hi.le, Nat.add_comm]
  refine run_eq_some_iff.mpr ⟨_, hends, ?_⟩
  simp [outcome?, facing, hhead]

/-- A run that sweeps to the right over the rest of the tape goes off it. -/
theorem Sweep.run_off_right (hi : i < tape.size)
    (hsweep : m.Sweep .moveRight m.start (tape.toList.drop i) q written) :
    m.run tape i = some ⟨.outOfBounds tape.size, q, .ofList (tape.toList.take i ++ written),
      tape.size - 1, tape.size - i⟩ := by
  have hread : (tape.toList.drop i).length = tape.size - i := by
    rw [List.length_drop, Tape.length_toList]
  have hleft : (written.reverse ++ (tape.toList.take i).reverse).length = tape.size := by
    rw [List.length_append, List.length_reverse, List.length_reverse, hsweep.length_eq, hread,
      List.length_take, Tape.length_toList]
    omega
  have hends : m.EndsIn (m.launch tape i)
      (sentRight q (written.reverse ++ (tape.toList.take i).reverse) [] (0 + (tape.size - i))) := by
    rw [launch_eq_sentRight hi, ← List.append_nil (tape.toList.drop i)]
    apply hsweep.endsIn_right
    rw [hread]
    exact endsIn_of_isHalted rfl
  refine run_eq_some_iff.mpr ⟨_, hends, ?_⟩
  simp [outcome?, sentRight, hleft]

end Machine

end TapeMachine
