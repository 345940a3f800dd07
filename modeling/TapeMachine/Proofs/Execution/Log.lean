import Mathlib.Data.List.Chain
import TapeMachine.Execution.Event
import TapeMachine.Proofs.Execution.Calls
import TapeMachine.Proofs.Execution.Run

/-!
# The log of a run

Whatever calls take a run on, their log is the run: one event for each move, in order, and one for
the halt once there is one (`log_replays`). A step adds to the log what it does (`Logged.step`), a
run under a bound adds what its steps add, and a call on a halted run adds nothing.
-/

namespace TapeMachine

/-- The machine that a call goes through. -/
def Call.machine : Call → Machine
  | step m => m
  | runBounded m _ => m

/-- What a call logs. -/
def Call.events : Call → Execution → List Event
  | step m, e => m.stepEvents e
  | runBounded m budget, e => m.runBoundedEvents budget e

/-- What calls log, made one after another. -/
def Execution.log : Execution → List Call → List Event
  | _, [] => []
  | e, call :: calls => call.events e ++ log (call.make e) calls

/-- The event of the halt, if the run has halted. -/
def Execution.stopEvents (e : Execution) : List Event :=
  match e.halt with
  | some halt => [.halted halt e.state e.head e.steps]
  | none => []

/-- A move is counted. It is logged with the position that the head was sent to, and its halt is
logged behind it if that is off the tape. -/
theorem Turn.log_move (q : State) (tape : Tape) (head target : Int) (steps : Nat) :
    let e := (Turn.move q tape head target steps).execution
    e.steps = steps + 1 ∧ (Turn.move q tape head target steps).log =
      .moved e.state e.sent e.tape e.steps :: e.stopEvents := by
  rw [Turn.move]
  cases tape.index? target <;> exact ⟨rfl, rfl⟩

/-- Where a move sent the head. -/
def Event.sentTo? : Event → Option Int
  | moved _ head _ _ => some head
  | halted .. => none

/-- Where the moves of a log sent the head, one after another. -/
def headsOf (log : List Event) : List Int := log.filterMap Event.sentTo?

/-- A walk goes one cell to the right or to the left at a time. -/
def IsWalk (heads : List Int) : Prop := heads.IsChain fun a b ↦ (b - a).natAbs = 1

/-- A run for any number of moves on a halted run logs nothing. -/
theorem Machine.runForEvents_of_isHalted (m : Machine) (n : Nat) {e : Execution}
    (h : e.isHalted = true) : m.runForEvents n e = [] := by
  cases n with
  | zero => simp [runForEvents, stepEvents_of_isHalted m h]
  | succ n => simp [runForEvents, step_of_isHalted m h, stepEvents_of_isHalted m h, h]

/-- A call on a halted run logs nothing. -/
theorem Call.events_of_isHalted (call : Call) {e : Execution} (h : e.isHalted = true) :
    call.events e = [] := by
  cases call with
  | step m => exact m.stepEvents_of_isHalted h
  | runBounded m budget => exact m.runForEvents_of_isHalted _ h

namespace Execution

/-- A log goes on where the calls before it have led. -/
theorem log_append (e : Execution) (calls more : List Call) :
    e.log (calls ++ more) = e.log calls ++ (e.after calls).log more := by
  induction calls generalizing e with
  | nil => rfl
  | cons call calls ih =>
    rw [List.cons_append, log, log, ih, List.append_assoc]
    rfl

/-- Calls on a halted run log nothing. -/
theorem log_of_isHalted {e : Execution} (h : e.isHalted = true) (calls : List Call) :
    e.log calls = [] := by
  induction calls with
  | nil => rfl
  | cons call calls ih => rw [log, call.events_of_isHalted h, call.make_of_isHalted h, ih]; rfl

end Execution

/-- A move is one by a single cell. -/
theorem Action.MovesBy.natAbs_eq {a : Action} {d : Int} (h : a.MovesBy d) : d.natAbs = 1 := by
  cases h <;> rfl

namespace Machine

/-- The event tells of the move numbered `n`, which the machine makes from this execution: the state
that the rule enters, where it sends the head, and the tape as it has been written. -/
inductive TellsMove (m : Machine) (e : Execution) (n : Nat) : Event → Prop
  | move {i : Nat} {s : Symbol} {t : Transition} {d : Int} : e.halt = none → e.Reads i s →
      m.HasRule e.state s t → t.action.MovesBy d →
      TellsMove m e n (.moved t.next (e.head + d) (e.tape.overwrite i t.write) n)

/-- The events are those of the moves that lead to an execution from a launch. -/
structure Replay (m : Machine) (tape : Tape) (head : Int) (moves : List Event) (e : Execution) :
    Prop where
  /-- The execution is on the trail of the launch. -/
  trail : Execution.Trail m.start tape head e
  /-- Before its halt a run has made a move with each step. -/
  going : e.halt = none → e = m.step^[e.steps] (m.launch tape head)
  /-- There is an event for each move. -/
  length_eq : moves.length = e.steps
  /-- The events tell of the moves in order. -/
  tells : ∀ j event, moves[j]? = some event →
    m.TellsMove (m.step^[j] (m.launch tape head)) (j + 1) event
  /-- There is a head for each move. -/
  length_heads : (headsOf moves).length = e.steps
  /-- The heads are a walk from where the head began. -/
  walk : IsWalk (head :: headsOf moves)
  /-- The walk ends where the head was sent last. -/
  last : (head :: headsOf moves).getLast? = some e.sent
  /-- Before the halt all heads are on the tape. -/
  covers : e.halt = none → ∀ position ∈ headsOf moves, tape.Covers position
  /-- All heads but the last are on the tape. -/
  covers_before : ∀ position ∈ (headsOf moves).dropLast, tape.Covers position

/-- The log is that of the moves that lead to an execution, and of its halt. -/
def Logged (m : Machine) (tape : Tape) (head : Int) (log : List Event) (e : Execution) : Prop :=
  ∃ moves, m.Replay tape head moves e ∧ log = moves ++ e.stopEvents

variable {m : Machine} {tape : Tape} {head : Int} {log moves : List Event} {e : Execution}

/-- Nothing has been logged at a launch. -/
theorem logged_launch (m : Machine) (tape : Tape) (head : Int) :
    m.Logged tape head [] (m.launch tape head) := by
  refine ⟨[], ⟨Execution.trail_launch m tape head, fun _ ↦ rfl, rfl, ?_, rfl,
    List.isChain_singleton _, rfl, ?_, ?_⟩, rfl⟩
  · intro j event hj
    cases hj
  · intro _ position hp
    cases hp
  · intro position hp
    cases hp

/-! ### One step -/

/-- A step that halts without a move is told by the same events. -/
theorem Replay.rests (h : m.Replay tape head moves e) (hn : e.halt = none)
    (hsteps : (m.step e).steps = e.steps) (hh : (m.step e).halt ≠ none)
    (hsent : (m.step e).sent = e.head) : m.Replay tape head moves (m.step e) where
  trail := h.trail.round (m.round_step e)
  going hn' := absurd hn' hh
  length_eq := h.length_eq.trans hsteps.symm
  tells := h.tells
  length_heads := h.length_heads.trans hsteps.symm
  walk := h.walk
  last := by rw [h.last, hsent, Execution.sent_of_halt_eq_none hn]
  covers hn' := absurd hn' hh
  covers_before := h.covers_before

/-- One event more tells of one move more. -/
theorem Replay.tells_concat (h : m.Replay tape head moves e) (hn : e.halt = none) {event : Event}
    (hevent : m.TellsMove e (e.steps + 1) event) (j : Nat) (event' : Event)
    (hj : (moves ++ [event])[j]? = some event') :
    m.TellsMove (m.step^[j] (m.launch tape head)) (j + 1) event' := by
  rw [List.getElem?_append, h.length_eq] at hj
  split at hj
  · exact h.tells j event' hj
  · next hge =>
    obtain ⟨hlt, rfl⟩ := List.getElem?_eq_some_iff.mp hj
    obtain rfl : j = e.steps := by
      rw [List.length_singleton] at hlt
      omega
    rw [← h.going hn, List.getElem_singleton]
    exact hevent

/-- A step that moves is told by one event more. -/
theorem Replay.goes (h : m.Replay tape head moves e) (hn : e.halt = none) {i : Nat} {s : Symbol}
    {t : Transition} {d : Int} (hr : e.Reads i s) (ht : m.HasRule e.state s t)
    (hd : t.action.MovesBy d) (hsteps : (m.step e).steps = e.steps + 1)
    (hsent : (m.step e).sent = e.head + d)
    (hcovers : (m.step e).halt = none → tape.Covers (e.head + d)) :
    m.Replay tape head
      (moves ++ [.moved t.next (e.head + d) (e.tape.overwrite i t.write) (e.steps + 1)])
      (m.step e) := by
  have hreached : m.step^[e.steps] (m.launch tape head) = e := (h.going hn).symm
  have hheads : headsOf
      (moves ++ [.moved t.next (e.head + d) (e.tape.overwrite i t.write) (e.steps + 1)]) =
        headsOf moves ++ [e.head + d] := by
    simp only [headsOf, List.filterMap_append, List.filterMap_cons, Event.sentTo?,
      List.filterMap_nil]
  have hlast : (head :: headsOf moves).getLast? = some e.head := by
    rw [h.last, Execution.sent_of_halt_eq_none hn]
  have hunit : (e.head + d - e.head).natAbs = 1 := by
    have := hd.natAbs_eq
    omega
  refine ⟨h.trail.round (m.round_step e), fun _ ↦ ?_, ?_, h.tells_concat hn (.move hn hr ht hd),
    ?_, ?_, ?_, fun hn' position hp ↦ ?_, ?_⟩
  · rw [hsteps, Function.iterate_succ_apply', hreached]
  · rw [List.length_append, h.length_eq, hsteps, List.length_singleton]
  · rw [hheads, List.length_append, h.length_heads, hsteps, List.length_singleton]
  · rw [hheads, ← List.cons_append]
    refine h.walk.append (List.isChain_singleton _) fun a ha b hb ↦ ?_
    obtain rfl : e.head = a := Option.some.inj (hlast.symm.trans ha)
    obtain rfl : e.head + d = b := Option.some.inj hb
    exact hunit
  · rw [hheads, ← List.cons_append, List.getLast?_concat, hsent]
  · rw [hheads, List.mem_append, List.mem_singleton] at hp
    rcases hp with hp | rfl
    · exact h.covers hn position hp
    · exact hcovers hn'
  · rw [hheads, List.dropLast_concat]
    exact h.covers hn

/-- A step that makes no move logs its halt, and a step that moves logs its move, and its halt if the
head was sent off the tape. -/
theorem stepEvents_cases (h : e.halt = none) :
    ((m.step e).steps = e.steps ∧ m.stepEvents e = (m.step e).stopEvents) ∨
      ((m.step e).steps = e.steps + 1 ∧
        m.stepEvents e = .moved (m.step e).state (m.step e).sent (m.step e).tape (m.step e).steps ::
          (m.step e).stopEvents) := by
  obtain ⟨q, tape, head, steps, halt⟩ := e
  obtain rfl : halt = none := h
  simp only [step, stepEvents, turn]
  split
  · exact .inl ⟨rfl, rfl⟩
  · split
    · exact .inl ⟨rfl, rfl⟩
    · split
      · exact .inr (Turn.log_move ..)
      · exact .inr (Turn.log_move ..)
      · exact .inl ⟨rfl, rfl⟩
      · exact .inl ⟨rfl, rfl⟩

/-- A step that makes no move logs its halt. -/
theorem stepEvents_of_rests (h : e.halt = none) (hsteps : (m.step e).steps = e.steps) :
    m.stepEvents e = (m.step e).stopEvents := by
  rcases stepEvents_cases (m := m) h with ⟨-, hlog⟩ | ⟨hcount, -⟩
  · exact hlog
  · omega

/-- A step that moves logs its move, and its halt if the head was sent off the tape. -/
theorem stepEvents_of_goes (h : e.halt = none) (hsteps : (m.step e).steps = e.steps + 1) :
    m.stepEvents e = .moved (m.step e).state (m.step e).sent (m.step e).tape (m.step e).steps ::
      (m.step e).stopEvents := by
  rcases stepEvents_cases (m := m) h with ⟨hcount, -⟩ | ⟨-, hlog⟩
  · omega
  · exact hlog

/-- The log of a run that halts without a move. -/
theorem Replay.logged_rests (h : m.Replay tape head moves e) {e' : Execution}
    (hs : m.step e = e') (hn : e.halt = none) (hsteps : e'.steps = e.steps) (hh : e'.halt ≠ none)
    (hsent : e'.sent = e.head) :
    m.Logged tape head (moves ++ e.stopEvents ++ m.stepEvents e) e' := by
  subst hs
  rw [Execution.stopEvents, hn, List.append_nil, stepEvents_of_rests hn hsteps]
  exact ⟨moves, h.rests hn hsteps hh hsent, rfl⟩

/-- The log of a run that moves. -/
theorem Replay.logged_goes (h : m.Replay tape head moves e) {e' : Execution} (hs : m.step e = e')
    (hn : e.halt = none) {i : Nat} {s : Symbol} {t : Transition} {d : Int} (hr : e.Reads i s)
    (ht : m.HasRule e.state s t) (hd : t.action.MovesBy d) (hstate : e'.state = t.next)
    (htape : e'.tape = e.tape.overwrite i t.write) (hsteps : e'.steps = e.steps + 1)
    (hsent : e'.sent = e.head + d) (hcovers : e'.halt = none → tape.Covers (e.head + d)) :
    m.Logged tape head (moves ++ e.stopEvents ++ m.stepEvents e) e' := by
  subst hs
  rw [Execution.stopEvents, hn, List.append_nil, stepEvents_of_goes hn hsteps, hstate, hsent,
    htape, hsteps, List.append_cons]
  exact ⟨_, h.goes hn hr ht hd hsteps hsent hcovers, rfl⟩

/-- A log with what the next step logs is that of the execution after the step. -/
theorem Logged.step (h : m.Logged tape head log e) :
    m.Logged tape head (log ++ m.stepEvents e) (m.step e) := by
  obtain ⟨moves, h, rfl⟩ := h
  have hround := m.round_step e
  generalize hs : m.step e = e' at hround ⊢
  cases hround with
  | stopped hh =>
    have hhalted : e.isHalted = true := by
      rw [Execution.isHalted, hh]
      rfl
    rw [stepEvents_of_isHalted m hhalted, List.append_nil]
    exact ⟨moves, h, rfl⟩
  | outside hn => exact h.logged_rests hs hn rfl (Option.some_ne_none _) rfl
  | undefined hn => exact h.logged_rests hs hn rfl (Option.some_ne_none _) rfl
  | accepted hn => exact h.logged_rests hs hn rfl (Option.some_ne_none _) rfl
  | rejected hn => exact h.logged_rests hs hn rfl (Option.some_ne_none _) rfl
  | moved hn hr ht hd hc =>
    exact h.logged_goes hs hn hr ht hd rfl rfl rfl rfl fun _ ↦ h.trail.covers_iff.mp hc
  | left hn hr ht hd hc =>
    exact h.logged_goes hs hn hr ht hd rfl rfl rfl rfl fun hn' ↦ absurd hn' (Option.some_ne_none _)

/-! ### All calls -/

/-- A log with what a run for some moves logs is that of the execution after the run. -/
theorem Logged.runFor (h : m.Logged tape head log e) (n : Nat) :
    m.Logged tape head (log ++ m.runForEvents n e) (m.runFor n e) := by
  induction n generalizing log e with
  | zero =>
    rw [runFor_zero, runForEvents]
    split
    · rwa [List.append_nil]
    · exact h.step
  | succ n ih =>
    simp only [runFor_succ, runForEvents]
    split
    · exact h.step
    · rw [← List.append_assoc]
      exact ih h.step

/-- A log with what a call logs is that of the execution that the call leaves. -/
theorem Logged.call (h : m.Logged tape head log e) {call : Call} (hm : call.machine = m) :
    m.Logged tape head (log ++ call.events e) (call.make e) := by
  cases call with
  | step m' =>
    obtain rfl : m' = m := hm
    exact h.step
  | runBounded m' budget =>
    obtain rfl : m' = m := hm
    exact h.runFor _

/-- A log with what calls log is that of the execution that they leave. -/
theorem Logged.after (h : m.Logged tape head log e) {calls : List Call}
    (hm : ∀ call ∈ calls, call.machine = m) :
    m.Logged tape head (log ++ e.log calls) (e.after calls) := by
  induction calls generalizing log e with
  | nil =>
    rw [Execution.log, List.append_nil]
    exact h
  | cons call calls ih =>
    rw [Execution.log, ← List.append_assoc]
    exact ih (h.call (hm call List.mem_cons_self)) fun c hc ↦ hm c (List.mem_cons_of_mem _ hc)

/-- The walk of a run ends off the tape exactly if the run has halted there after a move. -/
theorem Replay.getLast?_headsOf_iff (h : m.Replay tape head moves e) {position : Int} :
    (headsOf moves).getLast? = some position ∧ ¬tape.Covers position ↔
      e.halt = some (.outOfBounds position) ∧ 0 < e.steps := by
  rcases Nat.eq_zero_or_pos e.steps with h0 | hpos
  · have hnil : headsOf moves = [] := List.length_eq_zero_iff.mp (h.length_heads.trans h0)
    simp [hnil, h0]
  · have hne : headsOf moves ≠ [] := by
      apply List.ne_nil_of_length_pos
      rwa [h.length_heads]
    have hlast : (headsOf moves).getLast? = some e.sent := by
      rw [← h.last, List.getLast?_cons, List.getLast?_eq_some_getLast hne]
      rfl
    rw [hlast, Option.some.injEq]
    constructor
    · rintro ⟨rfl, hc⟩
      refine ⟨?_, hpos⟩
      rw [Execution.sent] at hc ⊢
      split
      · assumption
      · exact absurd (h.trail.covers hpos) (by simpa using hc)
    · rintro ⟨hh, -⟩
      have hsent : e.sent = position := by rw [Execution.sent, hh]
      exact ⟨hsent, (h.trail.outOfBounds position hh).1⟩

/-- The log replays the run. Whatever steps and runs under a budget take on the run of a machine,
the log has one event for each move, in order, which tells the state that the move enters, where it
sends the head and the tape as written; then one event for the halt, once there is one, with the
state, the head and the count at the end; and nothing more, however often calls are made after the
halt. The heads are a walk from where the head began, all on the tape but the last, which is off it
exactly if the run halts off the tape after a move, and then at the position that the halt reports.
-/
theorem log_replays (m : Machine) (tape : Tape) (head : Int) (calls : List Call)
    (hm : ∀ call ∈ calls, call.machine = m) :
    let first := m.launch tape head
    let last := first.after calls
    (∃ moves, first.log calls = moves ++ last.stopEvents ∧ moves.length = last.steps ∧
      (∀ j event, moves[j]? = some event → m.TellsMove (m.step^[j] first) (j + 1) event) ∧
      (headsOf moves).length = last.steps ∧ IsWalk (head :: headsOf moves) ∧
      (∀ position ∈ (headsOf moves).dropLast, tape.Covers position) ∧
      ∀ position, (headsOf moves).getLast? = some position ∧ ¬tape.Covers position ↔
        last.halt = some (.outOfBounds position) ∧ 0 < last.steps) ∧
    (last.isHalted = true → ∀ more, first.log (calls ++ more) = first.log calls) := by
  intro first last
  obtain ⟨moves, h, hlog⟩ : m.Logged tape head ([] ++ first.log calls) last :=
    (logged_launch m tape head).after hm
  refine ⟨⟨moves, hlog, h.length_eq, h.tells, h.length_heads, h.walk, h.covers_before,
    fun _ ↦ h.getLast?_headsOf_iff⟩, fun hh more ↦ ?_⟩
  rw [Execution.log_append, Execution.log_of_isHalted hh, List.append_nil]

/-- On `a` the shuttle moves off the tape with its first step. A run under a budget of no moves
before that logs nothing, and neither do calls after it. -/
theorem log_replays_shuttle :
    let tape : Tape := ⟨#[⟨'a', .refl true⟩]⟩
    let calls : List Call := [.runBounded shuttle 0, .step shuttle, .runBounded shuttle 5]
    let first := shuttle.launch tape 0
    let last := first.after calls
    ((∀ call ∈ calls, call.machine = shuttle) ∧ last.isHalted = true ∧
      first.log calls = [.moved ⟨1⟩ 1 tape 1, .halted (.outOfBounds 1) ⟨1⟩ 0 1]) ∧
    (∃ moves, first.log calls = moves ++ last.stopEvents ∧ moves.length = last.steps) ∧
      first.log (calls ++ [.step shuttle]) = first.log calls := by
  intro tape calls first last
  have hm : ∀ call ∈ calls, call.machine = shuttle := by simp [calls, Call.machine]
  have hhalted : last.isHalted = true := by decide
  obtain ⟨⟨moves, hlog, hlength, -⟩, hmore⟩ := log_replays shuttle tape 0 calls hm
  exact ⟨⟨hm, hhalted, by decide⟩, ⟨moves, hlog, hlength⟩, hmore hhalted _⟩

end Machine

end TapeMachine
