import TapeMachine.Proofs.Execution.WordArithmetic

/-!
# The look-ahead

`movesNext` and `step` go through the same questions in two ways: whether the run has stopped, what
the head reads, which rule fires and what its action is. They come to the same answers, so the
look-ahead says what the next step does to the count (`movesNext_iff_steps_lt`), and the count of a
run is the number of moves that were seen coming (`steps_iterate_step`). A step that makes no move
halts and leaves the execution as it was, but for one cell in which a rule that halts has written
(`Round.rests`).
-/

namespace TapeMachine

/-- Writing under the head leaves all other cells. -/
theorem Execution.Reads.overwrite_elsewhere {e : Execution} {i : Nat} {s : Symbol}
    (hr : e.Reads i s) (w : Symbol) {j : Nat} (hj : (j : Int) ≠ e.head) :
    (e.tape.overwrite i w).toList[j]? = e.tape.toList[j]? := by
  have hij : i ≠ j := by
    rw [hr.head_eq] at hj
    omega
  rw [Tape.toList_overwrite, List.getElem?_set_ne hij]

namespace Machine

variable {m : Machine} {e e' : Execution}

/-- A rule that halts fires on an execution: what it makes of the tape, and how the run ends. -/
inductive Decides (m : Machine) (e : Execution) : Tape → Halt → Prop
  | accepted {i : Nat} {s : Symbol} {t : Transition} : e.halt = none → e.Reads i s →
      m.HasRule e.state s t → t.action = .accept →
      Decides m e (e.tape.overwrite i t.write) .accepted
  | rejected {i : Nat} {s : Symbol} {t : Transition} : e.halt = none → e.Reads i s →
      m.HasRule e.state s t → t.action = .reject →
      Decides m e (e.tape.overwrite i t.write) .rejected

/-- An execution has come to rest in another: it has halted, and at most the cell under the head is
no longer what it was. -/
structure Rests (m : Machine) (e e' : Execution) : Prop where
  halted : ∃ halt, e'.halt = some halt
  state_eq : e'.state = e.state
  head_eq : e'.head = e.head
  steps_eq : e'.steps = e.steps
  size_eq : e'.tape.size = e.tape.size
  /-- No cell changes but the one under the head. -/
  elsewhere : ∀ j : Nat, (j : Int) ≠ e.head → e'.tape.toList[j]? = e.tape.toList[j]?
  /-- The tape changes only where a rule halts, and then as the rule says. -/
  decided : e'.tape ≠ e.tape → ∃ halt, e'.halt = some halt ∧ m.Decides e e'.tape halt

/-! ### One step -/

/-- The next step counts a move exactly if the look-ahead says that it moves. -/
theorem movesNext_iff_steps_lt : m.movesNext e = true ↔ e.steps < (m.step e).steps := by
  rcases step_cases m e with ⟨hmoves, hcount⟩ | ⟨hrests, hcount, -⟩
  · simp [hmoves, hcount]
  · simp [hrests, hcount]

/-- An execution that halts with the tape as it was has come to rest. -/
theorem rests_of_halt {halt? : Option Halt} (h : ∃ halt, halt? = some halt) :
    m.Rests e { e with halt := halt? } where
  halted := h
  state_eq := rfl
  head_eq := rfl
  steps_eq := rfl
  size_eq := rfl
  elsewhere _ _ := rfl
  decided hne := absurd rfl hne

/-- An execution on which a rule that halts has fired has come to rest. -/
theorem Decides.rests {tape : Tape} {halt : Halt} (h : m.Decides e tape halt) :
    m.Rests e { e with tape := tape, halt := some halt } where
  halted := ⟨halt, rfl⟩
  state_eq := rfl
  head_eq := rfl
  steps_eq := rfl
  size_eq := by cases h <;> exact Tape.size_overwrite _ _ _
  elsewhere j hj := by
    cases h with
    | accepted _ hr _ _ | rejected _ hr _ _ => exact hr.overwrite_elsewhere _ hj
  decided _ := ⟨halt, rfl, h⟩

/-- A round that makes no move comes to rest. -/
theorem Round.rests (h : m.Round e e') (hmoves : m.movesNext e = false) : m.Rests e e' := by
  cases h with
  | stopped hh => exact rests_of_halt ⟨_, hh⟩
  | outside | undefined => exact rests_of_halt ⟨_, rfl⟩
  | accepted hn hr ht ha => exact (Decides.accepted hn hr ht ha).rests
  | rejected hn hr ht ha => exact (Decides.rejected hn hr ht ha).rests
  | moved hn hr ht hd _ | left hn hr ht hd _ =>
    have hmoves' := movesNext_iff.mpr ⟨hn, _, _, _, _, hr, ht, hd⟩
    rw [hmoves] at hmoves'
    cases hmoves'

/-- A step that makes no move returns a halt. -/
theorem returned_turn_of_not_movesNext (h : m.movesNext e = false) :
    ∃ halt, (m.turn e).returned = .halt halt := by
  obtain ⟨halt, hhalt⟩ := ((m.round_step e).rests h).halted
  exact ⟨halt, by rw [m.returned_turn e, hhalt]; rfl⟩

/-! ### All steps -/

/-- The count of a run goes up by the number of its steps that were seen to move. -/
theorem steps_iterate_step (m : Machine) (e : Execution) (k : Nat) :
    (m.step^[k] e).steps =
      e.steps + (List.range k).countP fun j ↦ m.movesNext (m.step^[j] e) := by
  induction k with
  | zero => rfl
  | succ k ih =>
    rw [Function.iterate_succ_apply', List.range_succ, List.countP_append, List.countP_singleton]
    rcases step_cases m (m.step^[k] e) with ⟨hmoves, hcount⟩ | ⟨hrests, hcount, -⟩
    · rw [hcount, ih, hmoves, if_pos rfl, Nat.add_assoc]
    · rw [hcount, ih, hrests, if_neg Bool.false_ne_true, Nat.add_zero]

/-! ### The prediction -/

/-- The look-ahead predicts the step, for every machine and every execution: halted or not, the head
anywhere, with any table. It says that the next step moves exactly if the step counts, which it then
does by one. Otherwise the step returns a halt and comes to rest. On a tape whose size is a head position, and with a
count below the greatest word, an engine that computes in words makes the same step. -/
theorem movesNext_predicts_step (m : Machine) (e : Execution) :
    (m.movesNext e = true ↔ e.steps < (m.step e).steps) ∧
    (e.steps < (m.step e).steps → (m.step e).steps = e.steps + 1) ∧
    (m.movesNext e = false →
      m.Rests e (m.step e) ∧ ∃ halt, (m.turn e).returned = .halt halt) ∧
    (e.steps < maxCount → e.tape.size ≤ maxPosition →
      ∀ a : WordArithmetic, m.stepIn a e = some (m.step e)) := by
  refine ⟨movesNext_iff_steps_lt, fun hlt ↦ ?_, fun hrests ↦ ?_, fun hcount hsize a ↦ ?_⟩
  · exact steps_step_of_movesNext (movesNext_iff_steps_lt.mpr hlt)
  · exact ⟨(m.round_step e).rests hrests, returned_turn_of_not_movesNext hrests⟩
  · exact stepIn_eq hsize fun _ ↦ hcount

/-- The shuttle moves from `a` off the tape, which counts, and rests where it has been led. -/
theorem movesNext_predicts_step_shuttle :
    let tape : Tape := ⟨#[⟨'a', .refl true⟩]⟩
    let e : Execution := ⟨⟨0⟩, tape, 0, 41, none⟩
    let e' : Execution := ⟨⟨1⟩, tape, 0, 42, some (.outOfBounds 1)⟩
    (shuttle.step e = e' ∧ shuttle.movesNext e = true ∧ shuttle.movesNext e' = false) ∧
    (shuttle.step e).steps = e.steps + 1 ∧ shuttle.Rests e' (shuttle.step e') ∧
      (∃ halt, (shuttle.turn e').returned = .halt halt) ∧
      shuttle.stepIn .wrapping e = some e' := by
  intro tape e e'
  have hstep : shuttle.step e = e' := by decide
  have hmoves : shuttle.movesNext e = true := by decide
  have hrests : shuttle.movesNext e' = false := by decide
  obtain ⟨hpredicts, hcount, -, hwords⟩ := movesNext_predicts_step shuttle e
  obtain ⟨-, -, hrest, -⟩ := movesNext_predicts_step shuttle e'
  have hin : shuttle.stepIn .wrapping e = some (shuttle.step e) :=
    hwords (by decide) (by decide) .wrapping
  rw [hstep] at hin
  obtain ⟨hsame, hreturned⟩ := hrest hrests
  exact ⟨⟨hstep, hmoves, hrests⟩, hcount (hpredicts.mp hmoves), hsame, hreturned, hin⟩

end Machine

end TapeMachine
