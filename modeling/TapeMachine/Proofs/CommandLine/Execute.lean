import TapeMachine.CommandLine
import TapeMachine.Proofs.Execution.Budget

/-!
# Runs of the command line

The command line has a loop of its own, which shows a run to a visitor. Whoever watches is shown the
same executions and comes to the same end (`exists_execute_eq`): where a run under a budget ends,
or without a limit with the outcome of the run if that has one (`reaches_execute`). What is reported
tells the two ends of a run apart (`reported`).
-/

namespace TapeMachine

namespace Machine

variable {m : Machine} {σ : Type}

/-- A run after each of its next `n` steps. -/
def stages (m : Machine) (e : Execution) (n : Nat) : List Execution :=
  (List.range n).map fun i ↦ m.step^[i + 1] e

theorem stages_succ (m : Machine) (e : Execution) (n : Nat) :
    m.stages e (n + 1) = m.step e :: m.stages (m.step e) n := by
  simp only [stages, List.range_succ_eq_map, List.map_cons, List.map_map]
  rfl

/-- A watched run has been shown after each of a number of steps, none of which halted, and then
ends there or with one step more, which halted. -/
theorem exists_watch_eq (m : Machine) (limit rounds : Nat) (e : Execution) : ∃ n last,
    (∀ {σ : Type} (visit : σ → Execution → σ) (seen : σ),
      m.watch limit visit rounds seen e = ((m.stages e n).foldl visit seen, last)) ∧
    (∀ k < n, (m.step^[k + 1] e).isHalted = false) ∧
    (last = m.step^[n] e ∨ last = m.step^[n + 1] e ∧ last.isHalted = true) := by
  induction rounds generalizing e with
  | zero => exact ⟨0, e, fun _ _ ↦ rfl, fun _ hk ↦ absurd hk (Nat.not_lt_zero _), .inl rfl⟩
  | succ rounds ih =>
    by_cases hstop : limit ≠ 0 ∧ limit ≤ e.steps ∧ m.movesNext e = true
    · refine ⟨0, e, fun visit seen ↦ ?_, fun _ hk ↦ absurd hk (Nat.not_lt_zero _), .inl rfl⟩
      rw [watch, if_pos hstop]
      rfl
    · by_cases hh : (m.step e).isHalted = true
      · refine ⟨0, m.step e, fun visit seen ↦ ?_, fun _ hk ↦ absurd hk (Nat.not_lt_zero _),
          .inr ⟨rfl, hh⟩⟩
        simp only [watch, if_neg hstop, hh, if_true]
        rfl
      · obtain ⟨n, last, hshown, hgo, hlast⟩ := ih (m.step e)
        refine ⟨n + 1, last, fun visit seen ↦ ?_, fun k hk ↦ ?_, hlast⟩
        · simp only [watch, if_neg hstop, hh, if_false, Bool.false_eq_true, hshown, stages_succ,
            List.foldl_cons]
        · cases k with
          | zero => simpa using hh
          | succ k => exact hgo k (by omega)

/-- With as many rounds as it has moves left and one more, a watched run comes to the end of its
loop. -/
theorem boundedLoop_watch {limit rounds : Nat} {e : Execution} (hlimit : limit ≠ 0)
    (hrounds : limit - e.steps < rounds) (visit : σ → Execution → σ) (seen : σ) :
    m.BoundedLoop limit e (m.watch limit visit rounds seen e).2 := by
  induction rounds generalizing e seen with
  | zero => omega
  | succ rounds ih =>
    rw [watch]
    by_cases hstop : limit ≤ e.steps ∧ m.movesNext e = true
    · rw [if_pos ⟨hlimit, hstop⟩]
      exact .givenUp hstop.1 hstop.2
    · rw [if_neg fun h ↦ hstop h.2]
      by_cases hh : (m.step e).isHalted = true
      · simp only [hh, if_true]
        exact .halted hstop hh
      · have hgo : (m.step e).isHalted = false := by simpa using hh
        have hmoves := movesNext_of_step_goes_on hgo
        have hsteps := steps_step_of_movesNext hmoves
        have hbelow : ¬limit ≤ e.steps := fun hl ↦ hstop ⟨hl, hmoves⟩
        simp only [hh, if_false, Bool.false_eq_true]
        exact .again hstop hgo (ih (by omega) _)

/-- Without a limit and with more rounds than the run makes moves, a watched run comes to its end.
-/
theorem watch_of_movesExactly {rounds n : Nat} {e : Execution} (h : m.MovesExactly e n)
    (hrounds : n < rounds) (visit : σ → Execution → σ) (seen : σ) :
    (m.watch 0 visit rounds seen e).2 = m.step^[n + 1] e := by
  induction rounds generalizing e n seen with
  | zero => omega
  | succ rounds ih =>
    rw [watch, if_neg fun h ↦ h.1 rfl, Function.iterate_succ_apply]
    by_cases hh : (m.step e).isHalted = true
    · simp only [hh, if_true]
      exact (iterate_step_of_isHalted hh n).symm
    · have hmoves := movesNext_of_step_goes_on (by simpa using hh)
      cases n with
      | zero =>
        have hrests : m.movesNext e = false := h.rests
        rw [hmoves] at hrests
        cases hrests
      | succ n =>
        simp only [hh, if_false, Bool.false_eq_true]
        exact ih h.step (by omega) _

end Machine

namespace CommandLine

variable {m : Machine} {r : Run} {σ : Type}

/-- Whoever watches a run is shown it after each of the same number of steps, none of which halted,
and comes to the same end: there, or with one step more, which halted. -/
theorem exists_execute_eq (m : Machine) (r : Run) (limit : Nat) :
    let start := m.launch r.tape r.head
    ∃ n last,
      (∀ {σ : Type} (visit : σ → Execution → σ) (seen : σ),
        execute m r limit visit seen = ((m.stages start n).foldl visit seen, last)) ∧
      (∀ k < n, (m.step^[k + 1] start).isHalted = false) ∧
      (last = m.step^[n] start ∨ last = m.step^[n + 1] start ∧ last.isHalted = true) :=
  m.exists_watch_eq limit _ _

/-! ### Where a run ends -/

/-- Under a limit, the command line takes a run to where a run with that budget ends. -/
theorem execution_execute {limit : Nat} (hlimit : limit ≠ 0) (hmax : limit ≤ maxCount) (r : Run)
    (visit : σ → Execution → σ) (seen : σ) :
    (execute m r limit visit seen).2 = m.runBounded limit (m.launch r.tape r.head) := by
  have hloop := Machine.boundedLoop_watch (m := m) (e := m.launch r.tape r.head) hlimit
    (Nat.lt_succ_of_le (Nat.sub_le _ _)) visit seen
  rw [execute, if_neg hlimit]
  exact (hloop.runBounded_eq hmax).symm

/-- Without a limit, the command line takes a run that ends to its outcome. -/
theorem outcome?_execute_zero {r : Run} {o : Outcome} (h : m.run r.tape r.head = some o)
    (visit : σ → Execution → σ) (seen : σ) :
    (execute m r 0 visit seen).2.outcome? = some o := by
  obtain ⟨last, hlast, ho⟩ := Machine.run_eq_some_iff.mp h
  obtain ⟨n, hn⟩ := hlast.exists_movesExactly
  rw [execute, if_pos rfl,
    Machine.watch_of_movesExactly hn (Nat.lt_succ_of_le hn.le_haltBound) visit seen,
    ← hn.endsIn_iff.mp hlast, ho]

/-- Where the command line takes a run to: to the end of a run with that budget, or without a limit
to the outcome of the run. -/
structure Reaches (m : Machine) (limit : Nat) (r : Run) (e : Execution) : Prop where
  bounded : limit ≠ 0 → e = m.runBounded limit (m.launch r.tape r.head)
  unbounded : limit = 0 → e.outcome? = m.run r.tape r.head

theorem reaches_execute {limit : Nat} (hmax : limit ≤ maxCount)
    (hends : limit = 0 → ∃ o, m.run r.tape r.head = some o) (visit : σ → Execution → σ)
    (seen : σ) : Reaches m limit r (execute m r limit visit seen).2 where
  bounded hne := execution_execute hne hmax r visit seen
  unbounded hzero := by
    obtain ⟨o, ho⟩ := hends hzero
    rw [hzero, outcome?_execute_zero ho, ho]

/-! ### What is reported -/

/-- The lines about a run, of which those in the middle are there with `--trace` only. -/
theorem transcript_eq {o : Options} {shown : List Execution} {last : Execution}
    (h : ∀ {σ : Type} (visit : σ → Execution → σ) (seen : σ),
      execute m r (o.maxSteps.getD defaultMaxSteps) visit seen = (shown.foldl visit seen, last)) :
    transcript o m r = ["", "[EXECUTING TM INPUT: " ++ r.tape.text ++ " ]"] ++
      (if o.trace then shown.map Report.snapshot else []) ++ [reportLine last] := by
  rw [transcript, h]
  cases o.trace <;> simp

/-- What the command line reports of a run that it takes to `e`, as its last line and as JSON: the
outcome if the run has halted, and else that it was given up, with its state, its tape, its head and
its count of moves. -/
structure Reported (o : Options) (m : Machine) (r : Run) (e : Execution) : Prop where
  halted : ∀ halt, e.halt = some halt →
    let outcome : Outcome := ⟨halt, e.state, e.tape, e.head, e.steps⟩
    (transcript o m r).getLast? = some (Report.summary outcome) ∧
      endReport o m r = .object [("input", toJson r.tape), ("head", toJson r.head),
        ("status", .string "halted"), ("outcome", toJson outcome)]
  givenUp : e.halt = none →
    (transcript o m r).getLast? = some (Report.abandoned e) ∧
      endReport o m r = .object [("input", toJson r.tape), ("head", toJson r.head),
        ("status", .string "step_limit"), ("state", toJson e.state), ("tape", toJson e.tape),
        ("head", toJson e.head), ("steps", toJson e.steps)]

/-- What is reported of a run is where its loop has taken it, whoever watched. -/
theorem reported (o : Options) (m : Machine) (r : Run) (visit : σ → Execution → σ) (seen : σ) :
    Reported o m r (execute m r (o.maxSteps.getD defaultMaxSteps) visit seen).2 := by
  obtain ⟨n, last, h, -⟩ := exists_execute_eq m r (o.maxSteps.getD defaultMaxSteps)
  have hline : (transcript o m r).getLast? = some (reportLine last) := by
    rw [transcript_eq h, List.getLast?_concat]
  have hjson : endReport o m r = reportJson r last := by
    rw [endReport, h]
  rw [h]
  constructor
  · intro halt hh
    rw [hline, hjson, reportLine, reportJson, Execution.outcome?, hh]
    exact ⟨rfl, rfl⟩
  · intro hh
    rw [hline, hjson, reportLine, reportJson, Execution.outcome?, hh]
    exact ⟨rfl, rfl⟩

end CommandLine

end TapeMachine
