import TapeMachine.Proofs.CommandLine.Execute
import TapeMachine.Proofs.Execution.Calls

/-!
# What a visitor is shown

The command line shows a run to a visitor after each step that does not end it. Such a step is a
move, and every move is such a step except one that takes the head off the tape: it is counted, and
it halts. So a run is shown after every move, in order, unless its last move leaves the tape, and
then it is shown after every move but that one (`execute_shows`).
-/

namespace TapeMachine

/-- The last move of a run has taken the head off the tape. -/
def Execution.LeftTape (e : Execution) : Prop :=
  0 < e.steps ∧ ∃ position, e.halt = some (.outOfBounds position)

namespace Machine

variable {m : Machine} {e : Execution}

/-! ### Moves that halt -/

/-- A move that halts has left the tape. -/
theorem halt_step_of_movesNext (hmoves : m.movesNext e = true) (hh : (m.step e).isHalted = true) :
    ∃ position, (m.step e).halt = some (.outOfBounds position) := by
  have hround := m.round_step e
  have hsteps := steps_step_of_movesNext hmoves
  generalize m.step e = e' at hround hh hsteps ⊢
  cases hround with
  | moved => cases hh
  | left => exact ⟨_, rfl⟩
  | _ => exact absurd hsteps (Nat.ne_of_lt (Nat.lt_succ_self _))

/-- A run whose head is on its tape leaves the tape with a move. -/
theorem movesNext_of_halt_step (hgo : e.halt = none) (hc : e.tape.Covers e.head) {position : Int}
    (hh : (m.step e).halt = some (.outOfBounds position)) : m.movesNext e = true := by
  have hround := m.round_step e
  generalize m.step e = e' at hround hh
  cases hround with
  | stopped hh => cases hgo.symm.trans hh
  | outside _ hoff => exact absurd hc hoff
  | left hn hread hrule hd _ => exact movesNext_iff.mpr ⟨hn, _, _, _, _, hread, hrule, hd⟩
  | _ => cases hh

/-! ### Steps that go on -/

/-- As long as the steps of a run go on, each of them is a move. -/
theorem steps_iterate_of_go_on {n : Nat} (hgo : ∀ k < n, (m.step^[k + 1] e).isHalted = false) :
    (m.step^[n] e).steps = e.steps + n := by
  apply steps_iterate_of_moves
  intro k hk
  apply movesNext_of_step_goes_on
  rw [← Function.iterate_succ_apply' m.step]
  exact hgo k hk

/-- The last of a number of steps that go on has not halted. -/
theorem isHalted_iterate_of_go_on {n : Nat} (hpos : 0 < n)
    (hgo : ∀ k < n, (m.step^[k + 1] e).isHalted = false) : (m.step^[n] e).isHalted = false := by
  have hlast := hgo (n - 1) (by omega)
  rwa [Nat.sub_add_cancel hpos] at hlast

/-- The step that ends a run leaves the tape exactly if it is a move. -/
theorem leftTape_iterate_iff {tape : Tape} {head : Int} {n : Nat}
    (hgo : ∀ k < n, (m.step^[k + 1] (m.launch tape head)).isHalted = false)
    (hh : (m.step^[n + 1] (m.launch tape head)).isHalted = true) :
    (m.step^[n + 1] (m.launch tape head)).LeftTape ↔
      m.movesNext (m.step^[n] (m.launch tape head)) = true := by
  have hsteps : (m.step^[n] (m.launch tape head)).steps = n :=
    (steps_iterate_of_go_on hgo).trans (Nat.zero_add n)
  have htrail := Execution.trail_iterate_step m tape head n
  rw [Function.iterate_succ_apply'] at hh ⊢
  constructor
  · rintro ⟨hpos, position, hposition⟩
    by_contra hrests
    rw [steps_step_of_not_movesNext (by simpa using hrests), hsteps] at hpos
    have hnone : (m.step^[n] (m.launch tape head)).halt = none := by
      simpa [Execution.isHalted] using isHalted_iterate_of_go_on hpos hgo
    have hcovers := htrail.covers_iff.mpr (htrail.covers (hsteps.symm ▸ hpos))
    exact hrests (movesNext_of_halt_step hnone hcovers hposition)
  · intro hmoves
    refine ⟨?_, halt_step_of_movesNext hmoves hh⟩
    rw [steps_step_of_movesNext hmoves]
    exact Nat.succ_pos _

/-- A run that has gone on for `n` steps and ended there, or with the next step, has made that many
moves, or one more, which then has left the tape. -/
theorem moves_of_end {tape : Tape} {head : Int} {n : Nat} {last : Execution}
    (hgo : ∀ k < n, (m.step^[k + 1] (m.launch tape head)).isHalted = false)
    (hend : last = m.step^[n] (m.launch tape head) ∨
      last = m.step^[n + 1] (m.launch tape head) ∧ last.isHalted = true) :
    (∀ k ≤ last.steps, (m.step^[k] (m.launch tape head)).steps = k) ∧
      (¬last.LeftTape ∧ n = last.steps ∨ last.LeftTape ∧ n + 1 = last.steps ∧
        last = m.step^[last.steps] (m.launch tape head)) := by
  have hsteps : ∀ k ≤ n, (m.step^[k] (m.launch tape head)).steps = k := fun k hk ↦
    (steps_iterate_of_go_on fun j hj ↦ hgo j (by omega)).trans (Nat.zero_add k)
  rcases hend with rfl | ⟨rfl, hh⟩
  · rw [hsteps n (Nat.le_refl n)]
    refine ⟨hsteps, .inl ⟨?_, rfl⟩⟩
    rintro ⟨hpos, position, hposition⟩
    rw [hsteps n (Nat.le_refl n)] at hpos
    have hstill := isHalted_iterate_of_go_on hpos hgo
    rw [Execution.isHalted, hposition] at hstill
    cases hstill
  · have hleft := leftTape_iterate_iff hgo hh
    by_cases hmoves : m.movesNext (m.step^[n] (m.launch tape head)) = true
    · have hlast : (m.step^[n + 1] (m.launch tape head)).steps = n + 1 := by
        rw [Function.iterate_succ_apply', steps_step_of_movesNext hmoves,
          hsteps n (Nat.le_refl n)]
      rw [hlast]
      refine ⟨fun k hk ↦ ?_, .inr ⟨hleft.mpr hmoves, rfl, rfl⟩⟩
      rcases Nat.lt_or_eq_of_le hk with hlt | rfl
      · exact hsteps k (Nat.le_of_lt_succ hlt)
      · exact hlast
    · have hlast : (m.step^[n + 1] (m.launch tape head)).steps = n := by
        rw [Function.iterate_succ_apply', steps_step_of_not_movesNext (by simpa using hmoves),
          hsteps n (Nat.le_refl n)]
      rw [hlast]
      exact ⟨hsteps, .inl ⟨fun h ↦ hmoves (hleft.mp h), rfl⟩⟩

end Machine

namespace CommandLine

/-- The command line shows a run to a visitor after every one of its moves, in order, and at no
other time, unless the last move takes the head off the tape; then it shows the run after every move
but that one. With `--trace` it prints a snapshot of each execution that it shows. Without a limit
this is said of the runs that have an outcome, since from the others the command line does not come
back. The last execution is that of the run under a budget, or of the run to its end. -/
theorem execute_shows (m : Machine) (r : Run) (limit : Nat)
    (hends : limit = 0 → ∃ o, m.run r.tape r.head = some o) :
    let start := m.launch r.tape r.head
    let last := (execute m r limit (fun _ _ ↦ ()) ()).2
    (limit ≤ maxCount → Reaches m limit r last) ∧
    ∃ n, (∀ {σ : Type} (visit : σ → Execution → σ) (seen : σ),
        execute m r limit visit seen = ((m.stages start n).foldl visit seen, last)) ∧
      (∀ o : Options, o.trace = true → o.maxSteps.getD defaultMaxSteps = limit →
        transcript o m r = ["", "[EXECUTING TM INPUT: " ++ r.tape.text ++ " ]"] ++
          (m.stages start n).map Report.snapshot ++ [reportLine last]) ∧
      (∀ k ≤ last.steps, (m.step^[k] start).steps = k) ∧
      (¬last.LeftTape ∧ n = last.steps ∨
        last.LeftTape ∧ n + 1 = last.steps ∧ last = m.step^[last.steps] start) := by
  intro start last
  refine ⟨fun hmax ↦ reaches_execute hmax hends _ _, ?_⟩
  obtain ⟨n, last', hexecute, hgo, hend⟩ := exists_execute_eq m r limit
  obtain rfl : last = last' := congrArg Prod.snd (hexecute (fun _ _ ↦ ()) ())
  refine ⟨n, hexecute, ?_, Machine.moves_of_end hgo hend⟩
  rintro o ho rfl
  rw [transcript_eq hexecute, if_pos ho]

/-- Without a limit the shuttle makes one move on `a#`, which is shown, and then halts. -/
theorem execute_shows_shuttle :
    let r : Run := ⟨⟨#[⟨'a', rfl⟩, ⟨'#', rfl⟩]⟩, 0⟩
    let last : Execution := ⟨⟨1⟩, r.tape, 1, 1, some (.undefined ⟨1⟩ ⟨'#', rfl⟩)⟩
    ((execute Machine.shuttle r 0 (fun _ _ ↦ ()) ()).2 = last ∧ ¬last.LeftTape ∧
      ∃ o, Machine.shuttle.run r.tape r.head = some o) ∧
    execute Machine.shuttle r 0 (fun shown e ↦ shown ++ [e]) [] =
      (Machine.shuttle.stages (Machine.shuttle.launch r.tape r.head) 1, last) := by
  intro r last
  have hrun : ∃ o, Machine.shuttle.run r.tape r.head = some o :=
    ⟨⟨.undefined ⟨1⟩ ⟨'#', rfl⟩, ⟨1⟩, r.tape, 1, 1⟩, by decide⟩
  have hlast : (execute Machine.shuttle r 0 (fun _ _ ↦ ()) ()).2 = last := by decide
  have hstays : ¬last.LeftTape := by
    rintro ⟨-, position, hposition⟩
    cases hposition
  obtain ⟨-, n, hshown, -, -, hcount⟩ := execute_shows Machine.shuttle r 0 fun _ ↦ hrun
  rw [hlast] at hshown hcount
  obtain rfl : n = 1 := by
    rcases hcount with ⟨-, hn⟩ | ⟨hleft, -⟩
    · exact hn
    · exact absurd hleft hstays
  exact ⟨⟨hlast, hstays, hrun⟩, (hshown _ _).trans (congrArg (·, last) (by decide))⟩

/-- Not every move that is counted is shown: on `a`, the shuttle makes one move, which leaves the
tape, and nothing is shown. -/
theorem execute_not_shows_last_move :
    ¬∀ (m : Machine) (r : Run) (limit : Nat), limit ≠ 0 →
      let result := execute m r limit (fun shown e ↦ shown ++ [e]) []
      result.1 = m.stages (m.launch r.tape r.head) result.2.steps := by
  intro h
  have hshown := h Machine.shuttle ⟨⟨#[⟨'a', rfl⟩]⟩, 0⟩ defaultMaxSteps (by decide)
  exact absurd hshown (by decide)

end CommandLine

end TapeMachine
