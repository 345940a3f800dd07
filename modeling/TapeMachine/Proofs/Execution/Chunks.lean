import TapeMachine.Proofs.Execution.Budget

/-!
# Runs in chunks

A run under a budget may be cut anywhere. Two budgets spent one after the other are spent as their
sum (`runBounded_add`), and single steps come out of a budget by the moves that they make
(`runBounded_iterate_step`).
-/

namespace TapeMachine.Machine

variable {m : Machine}

/-- A run that makes no further move takes one more step, whatever it is allowed. -/
theorem runFor_of_not_movesNext {e : Execution} (h : m.movesNext e = false) (moves : Nat) :
    m.runFor moves e = m.step e := by
  cases moves with
  | zero => simp [runFor_zero, h]
  | succ moves => simp [runFor_succ, isHalted_step_of_not_movesNext h]

/-- A run may be cut after any number of moves. -/
theorem runFor_add (m : Machine) (a b : Nat) (e : Execution) :
    m.runFor (a + b) e = m.runFor b (m.runFor a e) := by
  induction a generalizing e with
  | zero =>
    rw [Nat.zero_add]
    cases hm : m.movesNext e with
    | true => simp [runFor_zero, hm]
    | false =>
      rw [runFor_of_not_movesNext hm, runFor_of_not_movesNext hm,
        runFor_of_isHalted m b (isHalted_step_of_not_movesNext hm)]
  | succ a ih =>
    rw [Nat.succ_add]
    simp only [runFor_succ]
    split
    · next hh => rw [runFor_of_isHalted m b hh]
    · exact ih (m.step e)

/-- A run that has not halted has made all the moves that it was allowed. -/
theorem steps_runFor_of_not_isHalted {moves : Nat} {e : Execution}
    (h : (m.runFor moves e).isHalted = false) : (m.runFor moves e).steps = e.steps + moves := by
  induction moves generalizing e with
  | zero =>
    cases hm : m.movesNext e with
    | true => simp [runFor_zero, hm]
    | false =>
      rw [runFor_of_not_movesNext hm, isHalted_step_of_not_movesNext hm] at h
      cases h
  | succ moves ih =>
    simp only [runFor_succ] at h ⊢
    split at h
    · next hh =>
      rw [hh] at h
      cases h
    · next hh =>
      have hgo : (m.step e).isHalted = false := by simpa using hh
      have hs := steps_step_of_movesNext (movesNext_of_step_goes_on hgo)
      rw [if_neg hh, ih h]
      omega

/-- Two budgets that are spent one after the other are spent as one, whether the first ends with a
halt or not, and whether the count can go as far as they reach or not. -/
theorem runBounded_add (m : Machine) (a b : Nat) (e : Execution) :
    m.runBounded (a + b) e = m.runBounded b (m.runBounded a e) := by
  -- `first` and `total` are the moves that the budgets allow; the second one gets what remains.
  let first := min (e.steps + a) maxCount - e.steps
  let total := min (e.steps + (a + b)) maxCount - e.steps
  have hcut : first + (total - first) = total := by omega
  have hwhole : m.runBounded (a + b) e = m.runFor (total - first) (m.runFor first e) := by
    rw [← runFor_add, hcut, runBounded]
  rw [hwhole, runBounded, runBounded]
  cases hh : (m.runFor first e).isHalted with
  | true => rw [runFor_of_isHalted m _ hh, runFor_of_isHalted m _ hh]
  | false =>
    have hs := steps_runFor_of_not_isHalted hh
    have hrest : min ((m.runFor first e).steps + b) maxCount - (m.runFor first e).steps =
        total - first := by omega
    rw [hrest]

/-- The count of moves never goes back. -/
theorem steps_le_step (m : Machine) (e : Execution) : e.steps ≤ (m.step e).steps := by
  rcases step_cases m e with ⟨-, hs⟩ | ⟨-, hs, -⟩ <;> omega

/-- Steps that stay within the limit of a loop lead to where the loop ends as well. -/
theorem BoundedLoop.iterate {limit : Nat} {e last : Execution} (h : m.BoundedLoop limit e last)
    {k : Nat} (hk : (m.step^[k] e).steps ≤ limit) : m.BoundedLoop limit (m.step^[k] e) last := by
  induction k with
  | zero => exact h
  | succ k ih =>
    rw [Function.iterate_succ_apply'] at hk ⊢
    have hback := m.steps_le_step (m.step^[k] e)
    refine (ih (hback.trans hk)).step ?_
    rintro ⟨hl, hm⟩
    rw [steps_step_of_movesNext hm] at hk
    omega

/-- Steps come out of a budget by the moves that they make. -/
theorem runBounded_iterate_step {e : Execution} {k j budget : Nat}
    (hj : (m.step^[k] e).steps = e.steps + j) (hle : j ≤ budget) (hmax : e.steps + j ≤ maxCount) :
    m.runBounded (budget - j) (m.step^[k] e) = m.runBounded budget e := by
  have hloop : m.BoundedLoop (min (e.steps + budget) maxCount) e (m.runBounded budget e) :=
    boundedLoop_iff.mpr rfl
  have hrest := boundedLoop_iff.mp (hloop.iterate (k := k) (by omega))
  have hmoves : min ((m.step^[k] e).steps + (budget - j)) maxCount - (m.step^[k] e).steps =
      min (e.steps + budget) maxCount - (m.step^[k] e).steps := by omega
  rw [hrest, runBounded, hmoves]

/-- Runs under budgets that leave the same execution return the same. -/
theorem turnsWithin_congr {e e' : Execution} {a b : Nat}
    (h : m.runBounded a e = m.runBounded b e') : m.turnsWithin a e = m.turnsWithin b e' := by
  rw [turnsWithin_eq, turnsWithin_eq, h]

/-- A run may be made in chunks. Two budgets spent one after the other leave the execution, and with
it the halt, that their sum leaves at once; and so do any steps that make no more moves than a
budget, followed by what they leave of it. What the last call returns is the same as well. -/
theorem run_in_chunks (m : Machine) (e : Execution) :
    (∀ a b, m.runBounded b (m.runBounded a e) = m.runBounded (a + b) e ∧
      m.turnsWithin b (m.runBounded a e) = m.turnsWithin (a + b) e) ∧
    ∀ k j budget, (m.step^[k] e).steps = e.steps + j → j ≤ budget → e.steps + j ≤ maxCount →
      m.runBounded (budget - j) (m.step^[k] e) = m.runBounded budget e ∧
        m.turnsWithin (budget - j) (m.step^[k] e) = m.turnsWithin budget e := by
  constructor
  · intro a b
    have hadd := (m.runBounded_add a b e).symm
    exact ⟨hadd, turnsWithin_congr hadd⟩
  · intro k j budget hj hle hmax
    have hrest := runBounded_iterate_step hj hle hmax
    exact ⟨hrest, turnsWithin_congr hrest⟩

/-- On `a#` four steps make one move of a budget of three, and the shuttle halts. -/
theorem run_in_chunks_shuttle :
    let tape : Tape := ⟨#[⟨'a', rfl⟩, ⟨'#', rfl⟩]⟩
    let e := shuttle.launch tape 0
    ((shuttle.step^[4] e).steps = e.steps + 1 ∧ 1 ≤ 3 ∧ e.steps + 1 ≤ maxCount) ∧
      shuttle.runBounded (3 - 1) (shuttle.step^[4] e) = shuttle.runBounded 3 e ∧
      shuttle.runBounded 3 (shuttle.runBounded 0 e) = shuttle.runBounded (0 + 3) e ∧
      shuttle.turnsWithin 3 (shuttle.runBounded 0 e) = shuttle.turnsWithin (0 + 3) e := by
  intro tape e
  obtain ⟨hadd, hsteps⟩ := run_in_chunks shuttle e
  have hmoves : (shuttle.step^[4] e).steps = e.steps + 1 := by decide
  have hmax : e.steps + 1 ≤ maxCount := by decide
  exact ⟨⟨hmoves, by decide, hmax⟩, (hsteps 4 1 3 hmoves (by decide) hmax).1, hadd 0 3⟩

end TapeMachine.Machine
