import TapeMachine.Proofs.Execution.Run
import TapeMachine.Proofs.Workbench.Session

/-!
# Runs that go on by themselves

Under a limit, a run that goes on by itself until it stops ends as a finish ends it, and the session
is the same in every part (`auto_play_eq_finish`). Both go through the loop of the engine under that
limit: each of its rounds is a tick, and the round that ends it is the tick that says so and turns
the going on off.
-/

namespace TapeMachine.Workbench

variable {w : Workbench}

/-- The session after its run has come to a halt or has been given up at its limit. -/
def stopAt (w : Workbench) (last : Execution) : Workbench :=
  if last.isHalted then w.atEnd last
  else { w with execution := last, message := limitMessage w.maxSteps, autoPlay := false }

/-! ### A step and a finish -/

/-- A session is not at its limit where the loop under the limit goes on. -/
theorem isAtLimit_eq_false (h : ¬(w.maxSteps ≤ w.execution.steps ∧
    w.program.machine.movesNext w.execution = true)) : w.isAtLimit = false := by
  rw [← Bool.not_eq_true, w.isAtLimit_iff]
  exact fun hat ↦ h hat.2

/-- At its limit a run is given up where it stands. -/
theorem stepOnce_of_isAtLimit (hat : w.isAtLimit = true) (hgo : w.execution.isHalted = false) :
    w.stepOnce = w.stopAt w.execution := by
  simp only [stepOnce, stopAt, hat, hgo, if_true, if_false, Bool.false_eq_true]

/-- A step that halts the run ends it. -/
theorem stepOnce_of_isHalted (hat : w.isAtLimit = false)
    (hh : (w.program.machine.step w.execution).isHalted = true) :
    w.stepOnce = w.stopAt (w.program.machine.step w.execution) := by
  simp only [stepOnce, stopAt, hat, hh, if_true, if_false, Bool.false_eq_true]

/-- A step that does not halt the run takes it on and says so. -/
theorem exists_stepOnce_eq_of_not_isHalted (hat : w.isAtLimit = false)
    (hgo : (w.program.machine.step w.execution).isHalted = false) :
    ∃ message, w.stepOnce =
      { w with execution := w.program.machine.step w.execution, message } := by
  simp only [stepOnce, hat, hgo, if_false, Bool.false_eq_true]
  exact ⟨_, rfl⟩

/-- A finish takes the run to where the loop under the limit ends. -/
theorem finish_eq_stopAt {last : Execution} (hlimit : w.maxSteps ≠ 0)
    (hmax : w.maxSteps ≤ maxCount)
    (h : w.program.machine.BoundedLoop w.maxSteps w.execution last) :
    w.finish = w.stopAt last := by
  simp only [finish, limit?, if_neg hlimit, h.runBounded_eq hmax]
  rfl

/-! ### Ticks -/

/-- Ticks take a session to another one, and before each of them the run goes on by itself. -/
def Plays (n : Nat) (w w' : Workbench) : Prop :=
  tick^[n] w = w' ∧ ∀ j < n, (tick^[j] w).isAutoPlaying = true

/-- No tick is needed where the run stands still. -/
theorem plays_zero (w : Workbench) : Plays 0 w w := ⟨rfl, fun _ hj ↦ absurd hj (Nat.not_lt_zero _)⟩

/-- A tick on a run that goes on by itself is a step of it. -/
theorem Plays.step {n : Nat} {w' : Workbench} (h : Plays n w.stepOnce w')
    (hon : w.isAutoPlaying = true) : Plays (n + 1) w w' := by
  have htick : w.tick = w.stepOnce := by rw [tick, if_pos hon]
  rw [← htick] at h
  refine ⟨h.1, fun j hj ↦ ?_⟩
  cases j with
  | zero => exact hon
  | succ j => exact h.2 j (by omega)

/-- A run that goes on by itself goes through the loop under the limit, round by round. -/
theorem exists_plays_of_boundedLoop {m : Machine} {limit : Nat} {e last : Execution}
    (h : m.BoundedLoop limit e last) (hlimit : limit ≠ 0) (hgo : e.isHalted = false)
    (hm : w.program.machine = m) (hw : w.maxSteps = limit) (hx : w.execution = e)
    (hauto : w.autoPlay = true) : ∃ n ≤ limit - e.steps + 1, Plays n w (w.stopAt last) := by
  have hon : w.isAutoPlaying = true := by
    rw [isAutoPlaying, hauto, hx, hgo]
    rfl
  induction h generalizing w with
  | givenUp hl hmoves =>
    subst hm hw hx
    have hstop := stepOnce_of_isAtLimit (w.isAtLimit_iff.mpr ⟨hlimit, hl, hmoves⟩) hgo
    exact ⟨1, Nat.le_add_left 1 _, Plays.step (hstop ▸ plays_zero _) hon⟩
  | halted hbelow hh =>
    subst hm hw hx
    have hstop := stepOnce_of_isHalted (isAtLimit_eq_false hbelow) hh
    exact ⟨1, Nat.le_add_left 1 _, Plays.step (hstop ▸ plays_zero _) hon⟩
  | @again _ last hbelow hgo' _ ih =>
    subst hm hw hx
    have hmoves := Machine.movesNext_of_step_goes_on hgo'
    have hsteps := Machine.steps_step_of_movesNext hmoves
    have hroom : w.execution.steps < w.maxSteps := by
      by_contra hfull
      exact hbelow ⟨Nat.le_of_not_lt hfull, hmoves⟩
    obtain ⟨message, hstep⟩ := exists_stepOnce_eq_of_not_isHalted (isAtLimit_eq_false hbelow) hgo'
    have hon' : w.stepOnce.isAutoPlaying = true := by
      rw [hstep, isAutoPlaying, hauto, hgo']
      rfl
    obtain ⟨n, hn, hplays⟩ := ih (w := w.stepOnce) hgo' (by rw [hstep]) (by rw [hstep])
      (by rw [hstep]) (by rw [hstep, hauto]) hon'
    have hsame : w.stepOnce.stopAt last = w.stopAt last := by
      rw [hstep]
      rfl
    exact ⟨n + 1, by omega, (hsame ▸ hplays).step hon⟩

/-- Under a limit, to let a run that has not halted go on by itself until it no longer does comes to
the same session as to finish it, in every part: where the run stands, what is said, that it does
not go on, and all that neither concerns. It takes at most one tick more than the limit leaves
moves. -/
theorem auto_play_eq_finish (hlimit : w.maxSteps ≠ 0) (hmax : w.maxSteps ≤ maxCount)
    (hgo : w.execution.isHalted = false) (hoff : w.autoPlay = false) :
    ∃ playing last n, w.press (.char 'p') = some playing ∧ w.press .enter = some last ∧
      (∀ j < n, (tick^[j] playing).isAutoPlaying = true) ∧ tick^[n] playing = last ∧
      last.isAutoPlaying = false ∧ n ≤ w.maxSteps - w.execution.steps + 1 := by
  have hloop := Machine.boundedLoop_runBounded (m := w.program.machine) w.execution hmax
  have hauto : w.toggleAutoPlay.autoPlay = true := by
    rw [toggleAutoPlay, hoff]
    rfl
  obtain ⟨n, hn, hlast, hplays⟩ :=
    exists_plays_of_boundedLoop (w := w.toggleAutoPlay) hloop hlimit hgo rfl rfl rfl hauto
  refine ⟨w.toggleAutoPlay, w.finish, n, rfl, rfl, hplays, ?_, ?_, hn⟩
  · rw [hlast, finish_eq_stopAt hlimit hmax hloop]
    rfl
  · obtain ⟨_, hfinish⟩ := w.exists_finish_eq
    rw [hfinish, isAutoPlaying]
    rfl

/-- The shuttle on `aa` under a limit of three moves, after the first of them: it goes on by itself
for the other two, and a third tick gives it up. -/
theorem auto_play_eq_finish_shuttle :
    let a : Symbol := ⟨'a', rfl⟩
    let p : Program := ⟨"shuttle", .normal, Machine.shuttle, [⟨⟨#[a, a]⟩, 0⟩]⟩
    let w := (launch p "" true 3 "").stepOnce
    (w.maxSteps ≠ 0 ∧ w.maxSteps ≤ maxCount ∧ w.execution.isHalted = false ∧
      w.autoPlay = false ∧ w.maxSteps - w.execution.steps + 1 = 3) ∧
    ∃ playing last n, w.press (.char 'p') = some playing ∧ w.press .enter = some last ∧
      (∀ j < n, (tick^[j] playing).isAutoPlaying = true) ∧ tick^[n] playing = last ∧
      last.isAutoPlaying = false ∧ n ≤ 3 := by
  intro a p w
  have hlimit : w.maxSteps ≠ 0 := by decide
  have hmax : w.maxSteps ≤ maxCount := by decide
  have hgo : w.execution.isHalted = false := by decide
  have hoff : w.autoPlay = false := by decide
  have hroom : w.maxSteps - w.execution.steps + 1 = 3 := by decide
  obtain ⟨playing, last, n, hp, henter, hplays, hlast, hstill, hn⟩ :=
    auto_play_eq_finish hlimit hmax hgo hoff
  exact ⟨⟨hlimit, hmax, hgo, hoff, hroom⟩,
    playing, last, n, hp, henter, hplays, hlast, hstill, hn.trans_eq hroom⟩

end TapeMachine.Workbench
