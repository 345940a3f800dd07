import TapeMachine.Proofs.Execution.Run

/-!
# Runs under a budget

The loop of a run under a limit on the count of moves always ends, and `runBounded` is where it ends
(`boundedLoop_iff`). It ends at the halt of the run exactly if the budget covers all its moves; with
a smaller budget it stops right before a move that it cannot afford (`runBounded_spec`).
-/

namespace TapeMachine.Machine

variable {m : Machine}

/-- A run under a limit ends in `last`: before each step it is given up if the limit has been
reached and the step would move, and after each step it is over if the step halted. -/
inductive BoundedLoop (m : Machine) (limit : Nat) : Execution → Execution → Prop
  /-- The run is given up. -/
  | givenUp {e : Execution} : limit ≤ e.steps → m.movesNext e = true → BoundedLoop m limit e e
  /-- The step halts. -/
  | halted {e : Execution} : ¬(limit ≤ e.steps ∧ m.movesNext e = true) →
      (m.step e).isHalted = true → BoundedLoop m limit e (m.step e)
  /-- The step moves and the run goes on. -/
  | again {e last : Execution} : ¬(limit ≤ e.steps ∧ m.movesNext e = true) →
      (m.step e).isHalted = false → BoundedLoop m limit (m.step e) last →
      BoundedLoop m limit e last

private theorem boundedLoop_runFor {limit moves : Nat} {e : Execution}
    (h : limit - e.steps = moves) : m.BoundedLoop limit e (m.runFor moves e) := by
  induction moves generalizing e with
  | zero =>
    rw [runFor_zero]
    by_cases hm : m.movesNext e = true
    · simp only [hm, if_true]
      exact .givenUp (by omega) hm
    · simp only [hm, if_false, Bool.false_eq_true]
      exact .halted (fun hc ↦ hm hc.2) (isHalted_step_of_not_movesNext (by simpa using hm))
  | succ moves ih =>
    have hc : ¬(limit ≤ e.steps ∧ m.movesNext e = true) := fun hc ↦ by omega
    rw [runFor_succ]
    by_cases hh : (m.step e).isHalted = true
    · simp only [hh, if_true]
      exact .halted hc hh
    · have hgo : (m.step e).isHalted = false := by simpa using hh
      have hs := steps_step_of_movesNext (movesNext_of_step_goes_on hgo)
      simp only [hh, if_false, Bool.false_eq_true]
      exact .again hc hgo (ih (by omega))

/-- A loop under a limit ends once. -/
theorem BoundedLoop.unique {limit : Nat} {e a b : Execution} (ha : m.BoundedLoop limit e a)
    (hb : m.BoundedLoop limit e b) : a = b := by
  induction ha with
  | givenUp hl hm =>
    cases hb with
    | givenUp => rfl
    | halted hc => exact absurd ⟨hl, hm⟩ hc
    | again hc => exact absurd ⟨hl, hm⟩ hc
  | halted hc hh =>
    cases hb with
    | givenUp hl hm => exact absurd ⟨hl, hm⟩ hc
    | halted => rfl
    | again _ hg =>
      rw [hh] at hg
      cases hg
  | again hc hg _ ih =>
    cases hb with
    | givenUp hl hm => exact absurd ⟨hl, hm⟩ hc
    | halted _ hh =>
      rw [hg] at hh
      cases hh
    | again _ _ hb => exact ih hb

/-- The loop under a limit ends, with the run for as many moves as the limit leaves. -/
theorem boundedLoop_iff {limit : Nat} {e last : Execution} :
    m.BoundedLoop limit e last ↔ last = m.runFor (limit - e.steps) e := by
  constructor
  · intro h
    exact h.unique (boundedLoop_runFor rfl)
  · rintro rfl
    exact boundedLoop_runFor rfl

/-- Where a loop ends, it is given up or the run has halted. -/
theorem BoundedLoop.done {limit : Nat} {e last : Execution} (h : m.BoundedLoop limit e last) :
    limit ≤ last.steps ∧ m.movesNext last = true ∨ last.isHalted = true := by
  induction h with
  | givenUp hl hm => exact .inl ⟨hl, hm⟩
  | halted _ hh => exact .inr hh
  | again _ _ _ ih => exact ih

/-- A loop that begins where a loop ended ends there. -/
theorem BoundedLoop.last {limit : Nat} {e last : Execution} (h : m.BoundedLoop limit e last) :
    m.BoundedLoop limit last last := by
  rcases h.done with ⟨hl, hm⟩ | hh
  · exact .givenUp hl hm
  · have hstays := step_of_isHalted m hh
    have hloop : m.BoundedLoop limit last (m.step last) :=
      .halted (by simp [movesNext_of_isHalted hh]) (by rwa [hstays])
    rwa [hstays] at hloop

/-- A loop that goes on after a step ends where it would have ended before it. -/
theorem BoundedLoop.step {limit : Nat} {e last : Execution} (h : m.BoundedLoop limit e last)
    (hgo : ¬(limit ≤ e.steps ∧ m.movesNext e = true)) : m.BoundedLoop limit (m.step e) last := by
  cases h with
  | givenUp hl hm => exact absurd ⟨hl, hm⟩ hgo
  | halted hn hh => exact (BoundedLoop.halted hn hh).last
  | again _ _ h => exact h

/-- The rest of the limit is the budget with which a run comes to the end of the loop. -/
theorem BoundedLoop.runBounded_eq {limit : Nat} {e last : Execution}
    (h : m.BoundedLoop limit e last) (hmax : limit ≤ maxCount) :
    m.runBounded (limit - e.steps) e = last := by
  have hmoves : min (e.steps + (limit - e.steps)) maxCount - e.steps = limit - e.steps := by omega
  rw [boundedLoop_iff.mp h, runBounded, hmoves]

/-- With the rest of the limit as its budget a run ends where the loop ends. -/
theorem boundedLoop_runBounded {limit : Nat} (e : Execution) (hmax : limit ≤ maxCount) :
    m.BoundedLoop limit e (m.runBounded (limit - e.steps) e) := by
  have hloop : m.BoundedLoop limit e (m.runFor (limit - e.steps) e) := boundedLoop_iff.mpr rfl
  rwa [← hloop.runBounded_eq hmax] at hloop

/-- A run under a bound on its moves is some steps on. -/
theorem exists_runFor_eq (m : Machine) (moves : Nat) (e : Execution) :
    ∃ k, m.runFor moves e = m.step^[k] e := by
  induction moves generalizing e with
  | zero =>
    rw [runFor_zero]
    split
    · exact ⟨0, rfl⟩
    · exact ⟨1, rfl⟩
  | succ moves ih =>
    simp only [runFor_succ]
    split
    · exact ⟨1, rfl⟩
    · obtain ⟨k, hk⟩ := ih (m.step e)
      exact ⟨k + 1, hk⟩

/-- A run makes no more moves than it is allowed. -/
theorem steps_runFor_le (m : Machine) (moves : Nat) (e : Execution) :
    (m.runFor moves e).steps ≤ e.steps + moves := by
  induction moves generalizing e with
  | zero =>
    rw [runFor_zero]
    by_cases hm : m.movesNext e = true
    · rw [if_pos hm]
      omega
    · rw [if_neg hm, steps_step_of_not_movesNext (by simpa using hm)]
      omega
  | succ moves ih =>
    have hstep : (m.step e).steps ≤ e.steps + 1 := by
      rcases step_cases m e with ⟨-, hs⟩ | ⟨-, hs, -⟩ <;> omega
    have hrest := ih (m.step e)
    simp only [runFor_succ]
    split <;> omega

/-- A run spends no more than its budget. -/
theorem steps_runBounded_le (m : Machine) (budget : Nat) (e : Execution) :
    (m.runBounded budget e).steps ≤ e.steps + budget := by
  have h := m.steps_runFor_le (min (e.steps + budget) maxCount - e.steps) e
  rw [runBounded]
  omega

/-- A run that is allowed fewer moves than it makes stops before a move, having made all it was
allowed. -/
theorem runFor_lt {e : Execution} {n moves : Nat} (h : m.MovesExactly e n) (hlt : moves < n) :
    m.runFor moves e = m.step^[moves] e ∧ (m.runFor moves e).isHalted = false ∧
      (m.runFor moves e).steps = e.steps + moves ∧ m.movesNext (m.runFor moves e) = true := by
  have hr := runFor_of_moves (n := moves) fun k hk ↦ h.moves k (by omega)
  have hm := h.moves moves hlt
  rw [hr]
  refine ⟨rfl, ?_, steps_iterate_of_moves fun k hk ↦ h.moves k (by omega), hm⟩
  by_contra hh
  rw [movesNext_of_isHalted (by simpa using hh)] at hm
  cases hm

/-- With a budget that does not cover the moves of a run, `runBounded` makes as many as it has. -/
theorem runBounded_eq_runFor {e : Execution} {n budget : Nat} (h : budget < n)
    (hs : e.steps + n ≤ maxCount) : m.runBounded budget e = m.runFor budget e := by
  rw [runBounded, Nat.min_eq_left (by omega), Nat.add_sub_cancel_left]

/-- A smaller budget than a run needs is spent to the last move. -/
theorem runBounded_of_lt {e last : Execution} {budget : Nat} (h : m.EndsIn e last)
    (hs : last.steps ≤ maxCount) (hlt : e.steps + budget < last.steps) :
    m.runBounded budget e = m.step^[budget] e ∧
      (m.runBounded budget e).isHalted = false ∧
      (m.runBounded budget e).steps = e.steps + budget ∧
      m.movesNext (m.runBounded budget e) = true := by
  obtain ⟨n, hn⟩ := h.exists_movesExactly
  have hlast := hn.endsIn_iff.mp h
  have hcount := hn.steps_eq
  rw [← hlast] at hcount
  rw [runBounded_eq_runFor (n := n) (by omega) (by omega)]
  exact runFor_lt hn (by omega)

/-- A budget reports the halt of a run exactly if it covers its moves. -/
theorem runBounded_eq_iff {e last : Execution} {budget : Nat} (h : m.EndsIn e last)
    (hs : last.steps ≤ maxCount) :
    m.runBounded budget e = last ↔ last.steps ≤ e.steps + budget := by
  obtain ⟨n, hn⟩ := h.exists_movesExactly
  have hlast := hn.endsIn_iff.mp h
  have hcount := hn.steps_eq
  rw [← hlast] at hcount
  constructor
  · intro heq
    by_contra hle
    have hlt : e.steps + budget < last.steps := by omega
    have hgo := (runBounded_of_lt h hs hlt).2.1
    rw [heq, hlast, hn.isHalted] at hgo
    cases hgo
  · intro hle
    rw [hlast, runBounded]
    exact runFor_of_movesExactly hn (by omega)

/-- What a run under a budget comes to. Its loop ends for every budget. If the run halts, with a
count of moves that can be held, then a budget reports the halt exactly if it reaches that count,
and a smaller budget is spent to the last move and stops before the next. If the run never halts,
the budget is spent as far as the count can go. The least budget that reports an outcome is its
number of moves. What is returned under a budget is the halt of the execution that is left, or that
the run can go on if it has none. -/
theorem runBounded_spec (m : Machine) (e : Execution) :
    (∀ budget last, m.BoundedLoop (min (e.steps + budget) maxCount) e last ↔
      last = m.runBounded budget e) ∧
    (∀ last, m.EndsIn e last → last.steps ≤ maxCount → ∀ budget,
      (m.runBounded budget e = last ↔ last.steps ≤ e.steps + budget) ∧
      (e.steps + budget < last.steps →
        m.runBounded budget e = m.step^[budget] e ∧
        (m.runBounded budget e).isHalted = false ∧
        (m.runBounded budget e).steps = e.steps + budget ∧
        m.movesNext (m.runBounded budget e) = true)) ∧
    (m.RunsForever e → ∀ budget,
      m.runBounded budget e = m.step^[min budget (maxCount - e.steps)] e ∧
      (m.runBounded budget e).isHalted = false ∧
      (m.runBounded budget e).steps = e.steps + min budget (maxCount - e.steps)) ∧
    (∀ tape head o, e = m.launch tape head → m.run tape head = some o → o.steps ≤ maxCount →
      ∀ budget, (m.runBounded budget e).outcome? = some o ↔ o.steps ≤ budget) ∧
    (∀ budget, m.turnsWithin budget e =
      (.ofHalt? (m.runBounded budget e).halt, m.runBounded budget e)) := by
  refine ⟨fun budget last ↦ boundedLoop_iff, fun last h hs budget ↦
    ⟨runBounded_eq_iff h hs, runBounded_of_lt h hs⟩, ?_, ?_, fun budget ↦ m.turnsWithin_eq budget e⟩
  · intro hf budget
    have hmoves : min (e.steps + budget) maxCount - e.steps = min budget (maxCount - e.steps) := by
      omega
    rw [runBounded, hmoves, runFor_of_moves fun k _ ↦ hf.movesNext k]
    exact ⟨rfl, hf _, steps_iterate_of_moves fun k _ ↦ hf.movesNext k⟩
  · intro tape head o he ho hs budget
    obtain ⟨last, hl, hlo⟩ := run_eq_some_iff.mp ho
    rw [← he] at hl
    have hlast := Execution.outcome?_eq_some_iff.mp hlo
    have hcount : last.steps = o.steps := by rw [hlast]
    have hstart : e.steps = 0 := by
      rw [he]
      rfl
    have hiff : m.runBounded budget e = last ↔ last.steps ≤ e.steps + budget :=
      runBounded_eq_iff hl (hcount.trans_le hs)
    rw [hcount, hstart, Nat.zero_add] at hiff
    rw [← hiff, Execution.outcome?_eq_some_iff, ← hlast]

/-- On `a#` the shuttle halts after one move, on `aa` never. -/
theorem runBounded_spec_shuttle :
    let short : Tape := ⟨#[⟨'a', rfl⟩, ⟨'#', rfl⟩]⟩
    let long : Tape := ⟨#[⟨'a', rfl⟩, ⟨'a', rfl⟩]⟩
    let last : Execution := ⟨⟨1⟩, short, 1, 1, some (.undefined ⟨1⟩ ⟨'#', rfl⟩)⟩
    let o : Outcome := ⟨.undefined ⟨1⟩ ⟨'#', rfl⟩, ⟨1⟩, short, 1, 1⟩
    (shuttle.EndsIn (shuttle.launch short 0) last ∧ last.steps ≤ maxCount ∧
      shuttle.runBounded 1 (shuttle.launch short 0) = last ∧
      shuttle.runBounded 0 (shuttle.launch short 0) = shuttle.launch short 0) ∧
    (shuttle.RunsForever (shuttle.launch long 0) ∧
      (shuttle.runBounded 7 (shuttle.launch long 0)).steps = 7) ∧
    (shuttle.run short 0 = some o ∧ o.steps ≤ maxCount ∧
      (shuttle.runBounded 1 (shuttle.launch short 0)).outcome? = some o) := by
  intro short long last o
  have hends : shuttle.EndsIn (shuttle.launch short 0) last := ⟨2, by decide, rfl⟩
  have hforever : shuttle.RunsForever (shuttle.launch long 0) :=
    runsForever_of_alike (p := 2) (by decide) ⟨by decide, by decide⟩ (by decide)
  have hrun : shuttle.run short 0 = some o := by decide
  obtain ⟨-, hhalt, -, hrep, -⟩ := runBounded_spec shuttle (shuttle.launch short 0)
  obtain ⟨-, -, hgo, -, -⟩ := runBounded_spec shuttle (shuttle.launch long 0)
  refine ⟨⟨hends, by decide, ?_, ?_⟩, ⟨hforever, ?_⟩, hrun, by decide, ?_⟩
  · exact (hhalt last hends (by decide) 1).1.mpr (by decide)
  · exact ((hhalt last hends (by decide) 0).2 (by decide)).1
  · exact (hgo hforever 7).2.2
  · exact (hrep short 0 o rfl hrun (by decide) 1).mpr (by decide)

end TapeMachine.Machine
