import TapeMachine.Proofs.Execution.Budget
import TapeMachine.Workbench

/-!
# Sessions

A session goes on with every input, a key or some time without one, until the key that ends it. What
every input keeps, a whole session keeps (`after_preserves`). Of the commands, a step and a finish
take the run on and leave everything else about it alone (`OnSameRun`).
-/

namespace TapeMachine.Workbench

/-- What comes to a session: a key, or some time without one. -/
inductive Input where
  | key (k : Key)
  | tick
  deriving DecidableEq, Repr

/-- The session after an input, unless the input ends it. -/
def take (w : Workbench) : Input → Option Workbench
  | .key k => w.press k
  | .tick => some w.tick

/-- The session after inputs, unless one of them ends it. -/
def after (w : Workbench) (inputs : List Input) : Option Workbench := inputs.foldlM take w

/-! ### From inputs to sessions -/

/-- A session after one more input before the others. -/
theorem after_cons (w : Workbench) (i : Input) (inputs : List Input) :
    w.after (i :: inputs) = (w.take i).bind fun w' ↦ w'.after inputs := by
  rw [after, List.foldlM_cons]
  rfl

/-- A session after further inputs behind the others. -/
theorem after_append (w : Workbench) (inputs more : List Input) :
    w.after (inputs ++ more) = (w.after inputs).bind fun w' ↦ w'.after more :=
  List.foldlM_append

/-- What every input keeps, a session keeps. -/
theorem after_preserves {P : Workbench → Prop}
    (h : ∀ w w' i, P w → w.take i = some w' → P w') {w w' : Workbench} {inputs : List Input}
    (hw : P w) (ha : w.after inputs = some w') : P w' := by
  induction inputs generalizing w with
  | nil =>
    obtain rfl : w = w' := Option.some.inj ha
    exact hw
  | cons i inputs ih =>
    rw [after_cons, Option.bind_eq_some_iff] at ha
    obtain ⟨next, hnext, ha⟩ := ha
    exact ih (h w next i hw hnext) ha

/-- A session goes on through inputs that do not end it, and keeps what they keep. -/
theorem exists_after {P : Workbench → Prop} {A : Input → Prop}
    (h : ∀ w i, A i → P w → ∃ w', w.take i = some w' ∧ P w') {w : Workbench}
    {inputs : List Input} (ha : ∀ i ∈ inputs, A i) (hw : P w) :
    ∃ w', w.after inputs = some w' ∧ P w' := by
  induction inputs generalizing w with
  | nil => exact ⟨w, rfl, hw⟩
  | cons i inputs ih =>
    obtain ⟨hi, ha⟩ := List.forall_mem_cons.mp ha
    obtain ⟨next, hnext, hkept⟩ := h w i hi hw
    obtain ⟨w', hw', hlast⟩ := ih ha hkept
    refine ⟨w', ?_, hlast⟩
    rw [after_cons, hnext, Option.bind_some, hw']

/-- A key asks for the end of the session exactly if it is `q`. -/
theorem command?_eq_quit_iff {k : Key} : k.command? = some .quit ↔ k = .char 'q' := by
  constructor
  · intro h
    unfold Key.command? at h
    split at h <;> simp_all
  · rintro rfl
    rfl

/-- An input ends a session exactly if it is the key `q`. -/
theorem take_eq_none_iff {w : Workbench} {i : Input} :
    w.take i = none ↔ i = .key (.char 'q') := by
  cases i with
  | tick => simp [take]
  | key k =>
    rw [take, press, Input.key.injEq, ← command?_eq_quit_iff]
    cases hc : k.command? with
    | none => simp
    | some c => cases c <;> simp [obey]

/-! ### The commands that stay on a run -/

/-- The session is on the same run as before, wherever that stands. -/
structure OnSameRun (w w' : Workbench) : Prop where
  program_eq : w'.program = w.program
  source_eq : w'.source = w.source
  isCustom_eq : w'.isCustom = w.isCustom
  programIndex_eq : w'.programIndex = w.programIndex
  runIndex_eq : w'.runIndex = w.runIndex
  maxSteps_eq : w'.maxSteps = w.maxSteps

/-- The number of moves that a finish allows the run. -/
def allowance (w : Workbench) : Nat :=
  if w.maxSteps = 0 then defaultMaxSteps else w.maxSteps - w.execution.steps

section

variable (w : Workbench)

/-- Whatever is said and shown, and wherever the run stands, a session stays on the run. -/
theorem onSameRun_with (execution : Execution) (autoPlay : Bool) (message : String)
    (showHelp showConfiguration : Bool) : w.OnSameRun
      { w with execution, autoPlay, message, showHelp, showConfiguration } :=
  ⟨rfl, rfl, rfl, rfl, rfl, rfl⟩

/-- A session is at its limit if it has one, the run has used it up, and it would move on. -/
theorem isAtLimit_iff : w.isAtLimit = true ↔
    w.maxSteps ≠ 0 ∧ w.maxSteps ≤ w.execution.steps ∧
      w.program.machine.movesNext w.execution = true := by
  rw [isAtLimit, limit?]
  by_cases h : w.maxSteps = 0 <;> simp [h]

/-- A step takes the run one step on, unless it is at its limit. -/
theorem exists_stepOnce_eq : ∃ message autoPlay, w.stepOnce = { w with
    execution := if w.isAtLimit then w.execution else w.program.machine.step w.execution
    message, autoPlay } := by
  simp only [stepOnce]
  split
  · exact ⟨_, _, rfl⟩
  · split
    · exact ⟨_, _, rfl⟩
    · exact ⟨_, _, rfl⟩

/-- A finish takes the run as far as it is allowed to go. -/
theorem exists_finish_eq : ∃ message, w.finish = { w with
    execution := w.program.machine.runBounded w.allowance w.execution
    message, autoPlay := false } := by
  by_cases h : w.maxSteps = 0
  · simp only [finish, limit?, allowance, if_pos h]
    split
    · exact ⟨_, rfl⟩
    · exact ⟨_, rfl⟩
  · simp only [finish, limit?, allowance, if_neg h]
    split
    · exact ⟨_, rfl⟩
    · exact ⟨_, rfl⟩

/-- Where a step takes the run. -/
theorem execution_stepOnce : w.stepOnce.execution =
    if w.isAtLimit then w.execution else w.program.machine.step w.execution := by
  obtain ⟨_, _, h⟩ := w.exists_stepOnce_eq
  rw [h]

/-- Where a finish takes the run. -/
theorem execution_finish : w.finish.execution =
    w.program.machine.runBounded w.allowance w.execution := by
  obtain ⟨_, h⟩ := w.exists_finish_eq
  rw [h]

/-- A step stays on the run. -/
theorem onSameRun_stepOnce : w.OnSameRun w.stepOnce := by
  obtain ⟨_, _, h⟩ := w.exists_stepOnce_eq
  rw [h]
  exact w.onSameRun_with ..

/-- A finish stays on the run. -/
theorem onSameRun_finish : w.OnSameRun w.finish := by
  obtain ⟨_, h⟩ := w.exists_finish_eq
  rw [h]
  exact w.onSameRun_with ..

/-- After a finish the run does not go on by itself. -/
theorem tick_finish : w.finish.tick = w.finish := by
  obtain ⟨_, h⟩ := w.exists_finish_eq
  rw [tick, isAutoPlaying, h]
  rfl

/-- Time goes by without effect, or as a step. -/
theorem tick_eq_or : w.tick = w ∨ w.tick = w.stepOnce := by
  rw [tick]
  split
  · exact .inr rfl
  · exact .inl rfl

end

end TapeMachine.Workbench
