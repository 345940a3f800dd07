import TapeMachine.Proofs.CommandLine.Execute
import TapeMachine.Proofs.Workbench.Session

/-!
# One step limit

The engine, the command line and the workbench each have a loop of their own. Under the same limit
they leave the same execution, however the workbench comes to it: by steps, by itself, or by
finishing more than once (`step_limit_everywhere`). At all times the loop of the engine, begun where
the session stands, ends where it would have ended from the launch (`HeadsFor`).
-/

namespace TapeMachine

namespace Workbench

/-- The inputs that stay on the run: space, enter, `p`, `c`, `h`, a key that asks for nothing, and
some time without a key. -/
inductive Input.StaysOnRun : Input → Prop
  | tick : StaysOnRun .tick
  | step : StaysOnRun (.key (.char ' '))
  | finish : StaysOnRun (.key .enter)
  | toggleAutoPlay : StaysOnRun (.key (.char 'p'))
  | toggleConfiguration : StaysOnRun (.key (.char 'c'))
  | toggleHelp : StaysOnRun (.key (.char 'h'))
  | unbound {k : Key} : k.command? = none → StaysOnRun (.key k)

/-- An input that stays on the run leaves it as it stands, or is a step or a finish. -/
theorem Input.StaysOnRun.exists_take {i : Input} (h : i.StaysOnRun) (w : Workbench) :
    ∃ w', w.take i = some w' ∧
      (w.OnSameRun w' ∧ w'.execution = w.execution ∨ w' = w.stepOnce ∨ w' = w.finish) := by
  have same : w.OnSameRun w := w.onSameRun_with ..
  cases h with
  | tick =>
    rcases w.tick_eq_or with ht | ht
    · exact ⟨w, congrArg some ht, .inl ⟨same, rfl⟩⟩
    · exact ⟨w.stepOnce, congrArg some ht, .inr (.inl rfl)⟩
  | step => exact ⟨_, rfl, .inr (.inl rfl)⟩
  | finish => exact ⟨_, rfl, .inr (.inr rfl)⟩
  | toggleAutoPlay => exact ⟨_, rfl, .inl ⟨w.onSameRun_with .., rfl⟩⟩
  | toggleConfiguration => exact ⟨_, rfl, .inl ⟨w.onSameRun_with .., rfl⟩⟩
  | toggleHelp => exact ⟨_, rfl, .inl ⟨w.onSameRun_with .., rfl⟩⟩
  | unbound hk =>
    refine ⟨w, ?_, .inl ⟨same, rfl⟩⟩
    rw [take, press, hk]

/-- The session runs a machine under a limit, and the loop under that limit goes from where the run
stands to `last`. -/
structure HeadsFor (m : Machine) (limit : Nat) (last : Execution) (w : Workbench) : Prop where
  machine_eq : w.program.machine = m
  maxSteps_eq : w.maxSteps = limit
  loop : m.BoundedLoop limit w.execution last

section

variable {m : Machine} {limit : Nat} {last : Execution} {w w' : Workbench}

/-- A session on the same run heads for the same end if the loop from where it stands does. -/
theorem HeadsFor.of_onSameRun (h : HeadsFor m limit last w) (same : w.OnSameRun w')
    (hloop : m.BoundedLoop limit w'.execution last) : HeadsFor m limit last w' where
  machine_eq := by rw [same.program_eq, h.machine_eq]
  maxSteps_eq := by rw [same.maxSteps_eq, h.maxSteps_eq]
  loop := hloop

/-- A session with a limit is at it exactly where the loop under the limit is given up. -/
theorem HeadsFor.isAtLimit_iff (h : HeadsFor m limit last w) (hlimit : limit ≠ 0) :
    w.isAtLimit = true ↔ limit ≤ w.execution.steps ∧ m.movesNext w.execution = true := by
  rw [w.isAtLimit_iff, h.machine_eq, h.maxSteps_eq]
  exact and_iff_right hlimit

/-- A step does not change where the run ends. -/
theorem HeadsFor.stepOnce (h : HeadsFor m limit last w) (hlimit : limit ≠ 0) :
    HeadsFor m limit last w.stepOnce := by
  apply h.of_onSameRun w.onSameRun_stepOnce
  rw [w.execution_stepOnce, h.machine_eq]
  by_cases hat : w.isAtLimit = true
  · rw [if_pos hat]
    exact h.loop
  · rw [if_neg hat]
    exact h.loop.step fun hstop ↦ hat ((h.isAtLimit_iff hlimit).mpr hstop)

/-- A finish takes the run to its end. -/
theorem HeadsFor.execution_finish (h : HeadsFor m limit last w) (hlimit : limit ≠ 0)
    (hmax : limit ≤ maxCount) : w.finish.execution = last := by
  rw [w.execution_finish, h.machine_eq, allowance, h.maxSteps_eq, if_neg hlimit]
  exact h.loop.runBounded_eq hmax

/-- A finish does not change where the run ends. -/
theorem HeadsFor.finish (h : HeadsFor m limit last w) (hlimit : limit ≠ 0)
    (hmax : limit ≤ maxCount) : HeadsFor m limit last w.finish := by
  apply h.of_onSameRun w.onSameRun_finish
  rw [h.execution_finish hlimit hmax]
  exact h.loop.last

/-- Inputs that stay on the run do not change where it ends. -/
theorem HeadsFor.exists_after (h : HeadsFor m limit last w) (hlimit : limit ≠ 0)
    (hmax : limit ≤ maxCount) {inputs : List Input} (hs : ∀ i ∈ inputs, i.StaysOnRun) :
    ∃ w', w.after inputs = some w' ∧ HeadsFor m limit last w' := by
  refine Workbench.exists_after (fun w i hi h ↦ ?_) hs h
  obtain ⟨w', hw', ⟨same, hx⟩ | rfl | rfl⟩ := hi.exists_take w
  · exact ⟨w', hw', h.of_onSameRun same (hx ▸ h.loop)⟩
  · exact ⟨_, hw', h.stepOnce hlimit⟩
  · exact ⟨_, hw', h.finish hlimit hmax⟩

/-- Inputs that stay on the run and a finish behind them take it to its end, and it stays there as
time goes by. -/
theorem HeadsFor.exists_after_finish (h : HeadsFor m limit last w) (hlimit : limit ≠ 0)
    (hmax : limit ≤ maxCount) {inputs : List Input} (hs : ∀ i ∈ inputs, i.StaysOnRun)
    (ticks : Nat) : ∃ w', w.after (inputs ++ .key .enter :: List.replicate ticks .tick) = some w' ∧
      w'.execution = last := by
  obtain ⟨before, hbefore, h⟩ := h.exists_after hlimit hmax hs
  have hstill : before.finish.after (List.replicate ticks .tick) = some before.finish := by
    induction ticks with
    | zero => rfl
    | succ ticks ih =>
      rw [List.replicate_succ, after_cons, take, tick_finish, Option.bind_some, ih]
  refine ⟨before.finish, ?_, h.execution_finish hlimit hmax⟩
  rw [after_append, hbefore, Option.bind_some, after_cons]
  exact hstill

end

end Workbench

/-- A run is given up at one and the same place, by the engine, the command line and the workbench,
if all have the same limit. The command line reports the execution that the engine leaves under that
budget, in its last line and as JSON. In a session on the run as it begins, whatever inputs come first that stay on the run, a
finish leaves that execution, and so it stays as time goes by. Without a limit, the command line
reports the outcome of the run if it has one. -/
theorem step_limit_everywhere (p : Program) (r : Run) :
    (∀ limit, limit ≠ 0 → limit ≤ maxCount →
      let last := p.machine.runBounded limit (p.machine.launch r.tape r.head)
      (∀ {σ : Type} (visit : σ → Execution → σ) (seen : σ),
        (CommandLine.execute p.machine r limit visit seen).2 = last) ∧
      (∀ o : CommandLine.Options, o.maxSteps.getD defaultMaxSteps = limit →
        CommandLine.Reported o p.machine r last) ∧
      (∀ (w : Workbench) (inputs : List Workbench.Input) (ticks : Nat), w.program = p →
        w.maxSteps = limit → w.execution = p.machine.launch r.tape r.head →
        (∀ i ∈ inputs, i.StaysOnRun) →
        ∃ w', w.after (inputs ++ .key .enter :: List.replicate ticks .tick) = some w' ∧
          w'.execution = last)) ∧
    (∀ o, p.machine.run r.tape r.head = some o →
      ∀ {σ : Type} (visit : σ → Execution → σ) (seen : σ),
        let last := (CommandLine.execute p.machine r 0 visit seen).2
        last.outcome? = some o ∧
          ∀ options : CommandLine.Options, options.maxSteps.getD defaultMaxSteps = 0 →
            CommandLine.Reported options p.machine r last) := by
  constructor
  · intro limit hlimit hmax last
    have hexecute {σ : Type} (visit : σ → Execution → σ) (seen : σ) :
        (CommandLine.execute p.machine r limit visit seen).2 = last :=
      CommandLine.execution_execute hlimit hmax r visit seen
    refine ⟨hexecute, ?_, ?_⟩
    · rintro o rfl
      rw [← hexecute (fun u _ ↦ u) ()]
      exact CommandLine.reported o p.machine r _ _
    · rintro w inputs ticks rfl hw hx hs
      have hloop : w.program.machine.BoundedLoop limit w.execution last := by
        rw [hx]
        exact Machine.boundedLoop_runBounded (w.program.machine.launch r.tape r.head) hmax
      exact Workbench.HeadsFor.exists_after_finish ⟨rfl, hw, hloop⟩ hlimit hmax hs ticks
  · intro o ho σ visit seen last
    refine ⟨CommandLine.outcome?_execute_zero ho visit seen, fun options hzero ↦ ?_⟩
    have hreported := CommandLine.reported options p.machine r visit seen
    rwa [hzero] at hreported

/-- With a limit of three moves, the shuttle is given up on `aa` by the command line, and by a
session that takes a step, goes on by itself for one more, and finishes. On `a#` it has an outcome.
-/
theorem step_limit_everywhere_shuttle :
    let a : Symbol := ⟨'a', rfl⟩
    let mark : Symbol := ⟨'#', rfl⟩
    let long : Run := ⟨⟨#[a, a]⟩, 0⟩
    let short : Run := ⟨⟨#[a, mark]⟩, 0⟩
    let p : Program := ⟨"shuttle", .normal, Machine.shuttle, [long, short]⟩
    let w := Workbench.launch p "" true 3 ""
    let inputs : List Workbench.Input :=
      [.key (.char ' '), .key (.char 'p'), .tick, .key (.char 'x')]
    let last : Execution := ⟨⟨1⟩, ⟨#[a, a]⟩, 1, 3, none⟩
    let o : Outcome := ⟨.undefined ⟨1⟩ mark, ⟨1⟩, ⟨#[a, mark]⟩, 1, 1⟩
    (3 ≠ 0 ∧ 3 ≤ maxCount ∧ w.program = p ∧ w.maxSteps = 3 ∧
      w.execution = p.machine.launch long.tape long.head ∧ (∀ i ∈ inputs, i.StaysOnRun) ∧
      (CommandLine.execute p.machine long 3 (fun u _ ↦ u) ()).2 = last ∧
      ∃ w', w.after (inputs ++ [.key .enter, .tick]) = some w' ∧ w'.execution = last) ∧
    (p.machine.run short.tape short.head = some o ∧
      (CommandLine.execute p.machine short 0 (fun u _ ↦ u) ()).2.outcome? = some o) := by
  intro a mark long short p w inputs last o
  have hstays : ∀ i ∈ inputs, i.StaysOnRun := by
    intro i hi
    rcases List.mem_cons.mp hi with rfl | hi
    · exact .step
    · rcases List.mem_cons.mp hi with rfl | hi
      · exact .toggleAutoPlay
      · rcases List.mem_cons.mp hi with rfl | hi
        · exact .tick
        · obtain rfl := List.mem_singleton.mp hi
          exact .unbound rfl
  have hlast : p.machine.runBounded 3 (p.machine.launch long.tape long.head) = last := by decide
  have hrun : p.machine.run short.tape short.head = some o := by decide
  obtain ⟨hexecute, -, hsession⟩ := (step_limit_everywhere p long).1 3 (by decide) (by decide)
  have hout := (step_limit_everywhere p short).2 o hrun (fun u _ ↦ u) ()
  rw [hlast] at hsession
  exact ⟨⟨by decide, by decide, rfl, rfl, rfl, hstays, (hexecute _ _).trans hlast,
    hsession w inputs 1 rfl rfl rfl hstays⟩, hrun, hout.1⟩

end TapeMachine
