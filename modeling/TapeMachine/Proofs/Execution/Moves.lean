import Mathlib.Data.Nat.Find
import TapeMachine.Execution.Budget
import TapeMachine.Proofs.Execution.Round

/-!
# Moves of a run

A run makes moves until a step makes none, and that step halts it; or it moves forever. The number
of moves says where the run ends (`endsIn_iff`) and what a run under a bound on its moves comes to
(`runFor_of_movesExactly`, `runFor_of_moves`).
-/

namespace TapeMachine.Machine

variable {m : Machine}

/-! ### The next step -/

/-- The next step moves exactly if the run has not stopped and a rule fires that moves. -/
theorem movesNext_iff {e : Execution} :
    m.movesNext e = true ↔ e.halt = none ∧
      ∃ i s t d, e.Reads i s ∧ m.HasRule e.state s t ∧ t.action.MovesBy d := by
  have hn : e.isHalted = false ↔ e.halt = none := by
    rw [Execution.isHalted]
    cases e.halt <;> simp
  simp only [movesNext, Bool.and_eq_true, Bool.not_eq_true', hn]
  refine and_congr_right fun _ ↦ ?_
  constructor
  · intro h
    cases hs : e.symbol? with
    | none => simp [hs] at h
    | some s =>
      obtain ⟨i, hr⟩ := Execution.symbol?_eq_some_iff.mp hs
      cases hl : m.table.lookup e.state s with
      | none => simp [hs, hl] at h
      | some t =>
        have ha : t.action.isHalting = false := by simpa [hs, hl] using h
        obtain ⟨d, hd⟩ := Action.isHalting_eq_false_iff.mp ha
        exact ⟨i, s, t, d, hr, hasRule_iff.mpr hl, hd⟩
  · rintro ⟨i, s, t, d, hr, ht, hd⟩
    have ha : t.action.isHalting = false := Action.isHalting_eq_false_iff.mpr ⟨d, hd⟩
    simp [Execution.symbol?_eq_some_iff.mpr ⟨i, hr⟩, hasRule_iff.mp ht, ha]

/-- A run that has stopped makes no move. -/
theorem movesNext_of_isHalted {e : Execution} (h : e.isHalted = true) : m.movesNext e = false := by
  simp [movesNext, h]

/-- A step that moves counts one move, and a step that makes none halts without counting. -/
theorem step_cases (m : Machine) (e : Execution) :
    (m.movesNext e = true ∧ (m.step e).steps = e.steps + 1) ∨
      (m.movesNext e = false ∧ (m.step e).steps = e.steps ∧ (m.step e).isHalted = true) := by
  have hround := round_step m e
  generalize m.step e = e' at hround
  have rest {i : Nat} {s : Symbol} {t : Transition} (hr : e.Reads i s)
      (ht : m.HasRule e.state s t) (ha : ∀ d, ¬t.action.MovesBy d) : m.movesNext e = false := by
    rw [← Bool.not_eq_true, movesNext_iff]
    rintro ⟨-, i', s', t', d, hr', ht', hd⟩
    obtain ⟨-, rfl⟩ := hr.unique hr'
    have : t = t' := Option.some.inj ((hasRule_iff.mp ht).symm.trans (hasRule_iff.mp ht'))
    exact ha d (this ▸ hd)
  cases hround with
  | stopped hh =>
    have he : e.isHalted = true := by simp [Execution.isHalted, hh]
    exact .inr ⟨movesNext_of_isHalted he, rfl, he⟩
  | outside hn hc =>
    refine .inr ⟨?_, rfl, rfl⟩
    rw [← Bool.not_eq_true, movesNext_iff]
    rintro ⟨-, i, s, t, d, hr, -⟩
    exact hc hr.covers
  | undefined hn hr ht =>
    refine .inr ⟨?_, rfl, rfl⟩
    rw [← Bool.not_eq_true, movesNext_iff]
    rintro ⟨-, i, s, t, d, hr', ht', -⟩
    obtain ⟨-, rfl⟩ := hr.unique hr'
    exact ht t ht'
  | accepted hn hr ht ha =>
    refine .inr ⟨rest hr ht fun d hd ↦ ?_, rfl, rfl⟩
    rw [ha] at hd
    cases hd
  | rejected hn hr ht ha =>
    refine .inr ⟨rest hr ht fun d hd ↦ ?_, rfl, rfl⟩
    rw [ha] at hd
    cases hd
  | moved hn hr ht hd hc => exact .inl ⟨movesNext_iff.mpr ⟨hn, _, _, _, _, hr, ht, hd⟩, rfl⟩
  | left hn hr ht hd hc => exact .inl ⟨movesNext_iff.mpr ⟨hn, _, _, _, _, hr, ht, hd⟩, rfl⟩

/-- A move is counted. -/
theorem steps_step_of_movesNext {e : Execution} (h : m.movesNext e = true) :
    (m.step e).steps = e.steps + 1 := by
  rcases step_cases m e with ⟨-, hs⟩ | ⟨hn, -⟩
  · exact hs
  · rw [h] at hn
    cases hn

/-- A step without a move is not counted. -/
theorem steps_step_of_not_movesNext {e : Execution} (h : m.movesNext e = false) :
    (m.step e).steps = e.steps := by
  rcases step_cases m e with ⟨hn, -⟩ | ⟨-, hs, -⟩
  · rw [h] at hn
    cases hn
  · exact hs

/-- A step without a move halts. -/
theorem isHalted_step_of_not_movesNext {e : Execution} (h : m.movesNext e = false) :
    (m.step e).isHalted = true := by
  rcases step_cases m e with ⟨hn, -⟩ | ⟨-, -, hh⟩
  · rw [h] at hn
    cases hn
  · exact hh

/-- A run that goes on after a step has moved. -/
theorem movesNext_of_step_goes_on {e : Execution} (h : (m.step e).isHalted = false) :
    m.movesNext e = true := by
  rcases step_cases m e with ⟨hn, -⟩ | ⟨-, -, hh⟩
  · exact hn
  · rw [h] at hh
    cases hh

/-! ### All steps -/

/-- After a halt further steps change nothing. -/
theorem iterate_step_of_isHalted {e : Execution} (h : e.isHalted = true) (k : Nat) :
    m.step^[k] e = e :=
  Function.iterate_fixed (step_of_isHalted m h) k

/-- An execution that has halted after some steps is the same after more steps. -/
theorem iterate_step_add_of_isHalted {e : Execution} {k : Nat}
    (h : (m.step^[k] e).isHalted = true) (j : Nat) : m.step^[k + j] e = m.step^[k] e := by
  rw [Nat.add_comm, Function.iterate_add_apply, iterate_step_of_isHalted h]

/-- The run comes to this end. -/
def EndsIn (m : Machine) (e last : Execution) : Prop :=
  ∃ k, m.step^[k] e = last ∧ last.isHalted = true

/-- The run comes to no end. -/
def RunsForever (m : Machine) (e : Execution) : Prop := ∀ k, (m.step^[k] e).isHalted = false

/-- The run makes exactly so many further moves. -/
structure MovesExactly (m : Machine) (e : Execution) (n : Nat) : Prop where
  moves : ∀ k < n, m.movesNext (m.step^[k] e) = true
  rests : m.movesNext (m.step^[n] e) = false

/-- A run that moves again and again counts every move. -/
theorem steps_iterate_of_moves {e : Execution} {n : Nat}
    (h : ∀ k < n, m.movesNext (m.step^[k] e) = true) : (m.step^[n] e).steps = e.steps + n := by
  induction n with
  | zero => rfl
  | succ n ih =>
    have hn := ih fun k hk ↦ h k (by omega)
    rw [Function.iterate_succ_apply', steps_step_of_movesNext (h n (by omega)), hn]
    omega

/-- A run that has not halted has made a move with each step. -/
theorem steps_iterate_of_not_isHalted {e : Execution} {k : Nat}
    (h : (m.step^[k] e).isHalted = false) : (m.step^[k] e).steps = e.steps + k := by
  apply steps_iterate_of_moves
  intro j hj
  apply movesNext_of_step_goes_on
  by_contra hh
  rw [← Function.iterate_succ_apply' m.step] at hh
  have hsame := iterate_step_add_of_isHalted (e := e) (k := j + 1) (by simpa using hh) (k - (j + 1))
  rw [Nat.add_sub_of_le hj] at hsame
  rw [← hsame] at hh
  exact hh h

/-- A run makes exactly so many moves, or moves forever. -/
theorem exists_movesExactly_or_runsForever (m : Machine) (e : Execution) :
    (∃ n, m.MovesExactly e n) ∨ m.RunsForever e := by
  by_cases h : ∃ n, m.movesNext (m.step^[n] e) = false
  · classical
    refine .inl ⟨Nat.find h, fun k hk ↦ ?_, Nat.find_spec h⟩
    simpa using Nat.find_min h hk
  · refine .inr fun k ↦ ?_
    by_contra hk
    exact h ⟨k, movesNext_of_isHalted (by simpa using hk)⟩

/-- A run that goes on forever moves with every step. -/
theorem RunsForever.movesNext {e : Execution} (h : m.RunsForever e) (k : Nat) :
    m.movesNext (m.step^[k] e) = true := by
  apply movesNext_of_step_goes_on
  rw [← Function.iterate_succ_apply' m.step]
  exact h (k + 1)

namespace MovesExactly

variable {e : Execution} {n : Nat}

/-- The step after the last move halts. -/
theorem isHalted (h : m.MovesExactly e n) : (m.step^[n + 1] e).isHalted = true := by
  rw [Function.iterate_succ_apply']
  exact isHalted_step_of_not_movesNext h.rests

/-- The execution at the end has counted every move. -/
theorem steps_eq (h : m.MovesExactly e n) : (m.step^[n + 1] e).steps = e.steps + n := by
  rw [Function.iterate_succ_apply', steps_step_of_not_movesNext h.rests,
    steps_iterate_of_moves h.moves]

/-- The end of a run is the execution after the step that follows its last move. -/
theorem endsIn_iff (h : m.MovesExactly e n) {last : Execution} :
    m.EndsIn e last ↔ last = m.step^[n + 1] e := by
  constructor
  · rintro ⟨k, rfl, hk⟩
    rw [← iterate_step_add_of_isHalted hk (n + 1), Nat.add_comm,
      iterate_step_add_of_isHalted h.isHalted]
  · rintro rfl
    exact ⟨n + 1, rfl, h.isHalted⟩

/-- After a move the run makes one move fewer. -/
theorem step (h : m.MovesExactly e (n + 1)) : m.MovesExactly (m.step e) n :=
  ⟨fun k hk ↦ h.moves (k + 1) (by omega), h.rests⟩

end MovesExactly

/-- A run that comes to an end makes a number of moves. -/
theorem EndsIn.exists_movesExactly {e last : Execution} (h : m.EndsIn e last) :
    ∃ n, m.MovesExactly e n := by
  obtain ⟨k, rfl, hk⟩ := h
  rcases exists_movesExactly_or_runsForever m e with hn | hf
  · exact hn
  · rw [hf k] at hk
    cases hk

/-- A run whose count of moves stays within a bound comes to an end. -/
theorem exists_endsIn_of_steps_le {e : Execution} {bound : Nat}
    (h : ∀ k, (m.step^[k] e).steps ≤ bound) : ∃ last, m.EndsIn e last := by
  by_cases hh : (m.step^[bound + 1] e).isHalted = true
  · exact ⟨_, bound + 1, rfl, hh⟩
  · have hgo : (m.step^[bound + 1] e).isHalted = false := by simpa only [Bool.not_eq_true] using hh
    have hsteps := steps_iterate_of_not_isHalted hgo
    have hbound := h (bound + 1)
    omega

/-- A run has one end. -/
theorem EndsIn.unique {e a b : Execution} (ha : m.EndsIn e a) (hb : m.EndsIn e b) : a = b := by
  obtain ⟨n, hn⟩ := ha.exists_movesExactly
  rw [hn.endsIn_iff.mp ha, hn.endsIn_iff.mp hb]

/-! ### Runs under a bound on their moves -/

/-- A run that can move more often than it is allowed to makes all the moves it is allowed. -/
theorem runFor_of_moves {e : Execution} {n : Nat}
    (h : ∀ k ≤ n, m.movesNext (m.step^[k] e) = true) : m.runFor n e = m.step^[n] e := by
  induction n generalizing e with
  | zero =>
    have h0 : m.movesNext e = true := h 0 (Nat.le_refl 0)
    simp [runFor_zero, h0]
  | succ n ih =>
    have h1 : m.movesNext (m.step e) = true := h 1 (by omega)
    have hgo : (m.step e).isHalted = false := by
      by_contra hh
      rw [movesNext_of_isHalted (by simpa using hh)] at h1
      cases h1
    rw [runFor_succ]
    simp only [hgo, Bool.false_eq_true, if_false]
    exact ih fun k hk ↦ h (k + 1) (by omega)

/-- A run that is allowed all its moves comes to its end. -/
theorem runFor_of_movesExactly {e : Execution} {k n : Nat} (h : m.MovesExactly e k)
    (hk : k ≤ n) : m.runFor n e = m.step^[k + 1] e := by
  induction n generalizing e k with
  | zero =>
    obtain rfl : k = 0 := by omega
    have h0 : m.movesNext e = false := h.rests
    simp [runFor_zero, h0]
  | succ n ih =>
    rw [runFor_succ]
    by_cases hh : (m.step e).isHalted = true
    · simp only [hh, if_true]
      have he := iterate_step_of_isHalted (m := m) hh k
      rw [Function.iterate_succ_apply, he]
    · have hm := movesNext_of_step_goes_on (by simpa using hh)
      obtain ⟨j, rfl⟩ : ∃ j, k = j + 1 := by
        apply Nat.exists_eq_succ_of_ne_zero
        intro h0
        subst h0
        have h1 : m.movesNext e = false := h.rests
        rw [hm] at h1
        cases h1
      simp only [hh, Bool.false_eq_true, if_false]
      exact ih h.step (by omega)

end TapeMachine.Machine
