import TapeMachine.Proofs.Execution.Moves

/-!
# Calls

A run is taken on by calls, single steps and runs under a budget in any order, and each call may go
through another machine than the one before. Whatever the calls, the execution stays on the trail of
its launch (`Execution.Trail`): the head has gone no further than the moves that are counted, cells
beyond that are as they were, and a halt tells where and how the run stopped. What every step keeps,
every call keeps (`Call.preserves`), and a call on a halted run does nothing and returns the halt.
-/

namespace TapeMachine

/-- A call that takes a run on. -/
inductive Call where
  /-- A single step of a machine. -/
  | step (m : Machine)
  /-- A run of a machine under a budget. -/
  | runBounded (m : Machine) (budget : Nat)

/-- The execution that a call leaves. -/
def Call.make : Call → Execution → Execution
  | step m, e => m.step e
  | runBounded m budget, e => m.runBounded budget e

/-- What a call returns. -/
def Call.returned : Call → Execution → Step
  | step m, e => (m.turn e).returned
  | runBounded m budget, e => (m.turnsWithin budget e).1

/-- The execution that calls leave, made one after another. -/
def Execution.after (e : Execution) (calls : List Call) : Execution :=
  calls.foldl (fun e call ↦ call.make e) e

/-! ### From steps to calls -/

/-- What every step of a machine keeps, a run for any number of moves keeps. -/
theorem Machine.runFor_preserves {m : Machine} {P : Execution → Prop}
    (h : ∀ e, P e → P (m.step e)) (moves : Nat) {e : Execution} (he : P e) :
    P (m.runFor moves e) := by
  induction moves generalizing e with
  | zero =>
    rw [runFor_zero]
    split
    · exact he
    · exact h e he
  | succ moves ih =>
    simp only [runFor_succ]
    split
    · exact h e he
    · exact ih (h e he)

/-- What the steps of all machines keep, every call keeps. -/
theorem Call.preserves {P : Execution → Prop} (h : ∀ m e, P e → P (Machine.step m e))
    (call : Call) {e : Execution} (he : P e) : P (call.make e) := by
  cases call with
  | step m => exact h m e he
  | runBounded m budget => exact m.runFor_preserves (h m) _ he

/-- What the steps of all machines keep, any calls keep. -/
theorem Execution.after_preserves {P : Execution → Prop} (h : ∀ m e, P e → P (Machine.step m e))
    (calls : List Call) {e : Execution} (he : P e) : P (e.after calls) := by
  induction calls generalizing e with
  | nil => exact he
  | cons call calls ih => exact ih (call.preserves h he)

/-- A call returns the halt of the execution that it leaves. -/
theorem Call.returned_eq (call : Call) (e : Execution) :
    call.returned e = .ofHalt? (call.make e).halt := by
  cases call with
  | step m => exact m.returned_turn e
  | runBounded m budget => exact congrArg Prod.fst (m.turnsWithin_eq budget e)

/-- A call on a halted run changes nothing. -/
theorem Call.make_of_isHalted (call : Call) {e : Execution} (h : e.isHalted = true) :
    call.make e = e := by
  cases call with
  | step m => exact m.step_of_isHalted h
  | runBounded m budget => exact m.runFor_of_isHalted _ h

/-- Calls on a halted run change nothing. -/
theorem Execution.after_of_isHalted {e : Execution} (h : e.isHalted = true) (calls : List Call) :
    e.after calls = e := by
  induction calls with
  | nil => rfl
  | cons call calls ih =>
    rw [after, List.foldl_cons, call.make_of_isHalted h]
    exact ih

/-! ### The trail of a run -/

namespace Execution

/-- Where the head was sent last: off the tape if that is how the run ended. -/
def sent (e : Execution) : Int :=
  match e.halt with
  | some (.outOfBounds position) => position
  | _ => e.head

/-- What holds of an execution that began in the state `start` on `tape` with the head at `origin`.
-/
structure Trail (start : State) (tape : Tape) (origin : Int) (e : Execution) : Prop where
  /-- The tape keeps its length. -/
  size_eq : e.tape.size = tape.size
  /-- Without a move the run is where it began. -/
  unmoved : e.steps = 0 → e.head = origin ∧ e.state = start
  /-- After a move the head is on the tape. -/
  covers : 0 < e.steps → tape.Covers e.head
  /-- A cell that is further off than the number of moves holds what it held. -/
  untouched : ∀ i : Nat, e.steps < ((i : Int) - origin).natAbs →
    e.tape.toList[i]? = tape.toList[i]?
  /-- A run off the tape ended before its first move or with a move over one of the two ends. -/
  outOfBounds : ∀ position, e.halt = some (.outOfBounds position) → ¬tape.Covers position ∧
    (e.steps = 0 ∧ position = e.head ∧ e.head = origin ∨
      0 < e.steps ∧ (position = -1 ∧ e.head = 0 ∨
        position = tape.size ∧ e.head = (tape.size : Int) - 1))
  /-- A missing rule is one for the state and the symbol under the head. -/
  undefined : ∀ state symbol, e.halt = some (.undefined state symbol) →
    state = e.state ∧ e.symbol? = some symbol
  /-- The head was sent no further than there were moves. -/
  near : (e.sent - origin).natAbs ≤ e.steps
  /-- Every move changes the parity of the position. -/
  parity : (e.sent - origin).natAbs % 2 = e.steps % 2

/-- A run begins on its trail. -/
theorem trail_launch (m : Machine) (tape : Tape) (head : Int) :
    Trail m.start tape head (m.launch tape head) where
  size_eq := rfl
  unmoved _ := ⟨rfl, rfl⟩
  covers h := absurd h (Nat.lt_irrefl 0)
  untouched _ _ := rfl
  outOfBounds _ h := by cases h
  undefined _ _ h := by cases h
  near := by simp [sent, Machine.launch]
  parity := by simp [sent, Machine.launch]

section

variable {start : State} {tape : Tape} {origin : Int} {e : Execution}

theorem sent_of_halt_eq_none (h : e.halt = none) : e.sent = e.head := by
  simp [sent, h]

/-- A run that has not halted covers its position on the first tape as on its own. -/
theorem Trail.covers_iff (h : Trail start tape origin e) {position : Int} :
    e.tape.Covers position ↔ tape.Covers position := by
  rw [Tape.Covers, Tape.Covers, h.size_eq]

/-- Writing under the head leaves the cells that are too far off as they were. -/
theorem Trail.untouched_overwrite (h : Trail start tape origin e) (hn : e.halt = none) {i : Nat}
    {s : Symbol} (hr : e.Reads i s) (w : Symbol) {j : Nat}
    (hj : e.steps < ((j : Int) - origin).natAbs) :
    (e.tape.overwrite i w).toList[j]? = tape.toList[j]? := by
  have hi := h.near
  rw [sent_of_halt_eq_none hn, hr.head_eq] at hi
  have hne : i ≠ j := by
    rintro rfl
    omega
  rw [Tape.toList_overwrite, List.getElem?_set_ne hne]
  exact h.untouched j hj

/-- A run that halts without a move stays on its trail, if the halt tells where and how it is. -/
theorem Trail.halted (h : Trail start tape origin e) (hn : e.halt = none) {written : Tape}
    {halt : Halt} (hs : written.size = tape.size)
    (hu : ∀ j : Nat, e.steps < ((j : Int) - origin).natAbs →
      written.toList[j]? = tape.toList[j]?)
    (ho : ∀ position, halt = .outOfBounds position →
      position = e.head ∧ e.head = origin ∧ e.steps = 0 ∧ ¬tape.Covers position)
    (hd : ∀ state symbol, halt = .undefined state symbol →
      state = e.state ∧ written.get? e.head = some symbol) :
    Trail start tape origin { e with tape := written, halt := some halt } := by
  have hsent : sent { e with tape := written, halt := some halt } = e.sent := by
    rw [sent_of_halt_eq_none hn]
    cases halt with
    | outOfBounds position => exact (ho position rfl).1
    | _ => rfl
  refine ⟨hs, h.unmoved, h.covers, hu, ?_, ?_, hsent ▸ h.near, hsent ▸ h.parity⟩
  · intro position hx
    obtain ⟨hp, hhead, hsteps, hc⟩ := ho position (Option.some.inj hx)
    exact ⟨hc, .inl ⟨hsteps, hp, hhead⟩⟩
  · intro state symbol hx
    exact hd state symbol (Option.some.inj hx)

/-- A run that halts with a rule stays on its trail. -/
theorem Trail.decided (h : Trail start tape origin e) (hn : e.halt = none) {i : Nat} {s : Symbol}
    (hr : e.Reads i s) (w : Symbol) {halt : Halt} (ha : halt = .accepted ∨ halt = .rejected) :
    Trail start tape origin { e with tape := e.tape.overwrite i w, halt := some halt } := by
  apply h.halted hn
  · rw [Tape.size_overwrite, h.size_eq]
  · exact fun j hj ↦ h.untouched_overwrite hn hr w hj
  · rintro position rfl
    simp at ha
  · rintro state symbol rfl
    simp at ha

/-- A run that moves stays on its trail, whether the head is taken along or not. -/
theorem Trail.went (h : Trail start tape origin e) (hn : e.halt = none) {i : Nat} {s : Symbol}
    (hr : e.Reads i s) (w : Symbol) {a : Action} {d : Int} (hd : a.MovesBy d) {q : State}
    {head : Int} {halt : Option Halt}
    (hgo : head = e.head + d ∧ halt = none ∧ tape.Covers (e.head + d) ∨
      head = e.head ∧ halt = some (.outOfBounds (e.head + d)) ∧ ¬tape.Covers (e.head + d)) :
    Trail start tape origin ⟨q, e.tape.overwrite i w, head, e.steps + 1, halt⟩ := by
  have hnear := h.near
  have hparity := h.parity
  rw [sent_of_halt_eq_none hn] at hnear hparity
  have hon : tape.Covers e.head := h.covers_iff.mp hr.covers
  have hsent : sent ⟨q, e.tape.overwrite i w, head, e.steps + 1, halt⟩ = e.head + d := by
    rcases hgo with ⟨rfl, rfl, -⟩ | ⟨-, rfl, -⟩ <;> rfl
  have hstep : d = 1 ∨ d = -1 := by cases hd <;> simp
  refine ⟨?_, fun h0 ↦ absurd h0 (Nat.succ_ne_zero _), ?_, ?_, ?_, ?_, ?_, ?_⟩
  · rw [Tape.size_overwrite, h.size_eq]
  · intro _
    rcases hgo with ⟨rfl, -, hc⟩ | ⟨rfl, -, -⟩
    · exact hc
    · exact hon
  · intro j hj
    exact h.untouched_overwrite hn hr w (Nat.lt_of_succ_lt hj)
  · intro position hx
    rcases hgo with ⟨-, rfl, -⟩ | ⟨rfl, rfl, hc⟩
    · cases hx
    · obtain rfl : e.head + d = position := by simpa using hx
      refine ⟨hc, .inr ⟨Nat.succ_pos _, ?_⟩⟩
      simp only [Tape.Covers] at hon hc ⊢
      omega
  · intro state symbol hx
    rcases hgo with ⟨-, rfl, -⟩ | ⟨-, rfl, -⟩ <;> cases hx
  · rw [hsent]
    show (e.head + d - origin).natAbs ≤ e.steps + 1
    omega
  · rw [hsent]
    show (e.head + d - origin).natAbs % 2 = (e.steps + 1) % 2
    omega

/-- A round keeps a run on its trail. -/
theorem Trail.round {m : Machine} {e' : Execution} (h : Trail start tape origin e)
    (hr : m.Round e e') : Trail start tape origin e' := by
  cases hr with
  | stopped => exact h
  | outside hn hc =>
    rw [h.covers_iff] at hc
    have hs : e.steps = 0 := by
      by_contra hs
      exact hc (h.covers (Nat.pos_of_ne_zero hs))
    apply h.halted hn h.size_eq h.untouched
    · intro position hx
      obtain rfl : e.head = position := by simpa using hx
      exact ⟨rfl, (h.unmoved hs).1, hs, hc⟩
    · intro q s hx
      cases hx
  | undefined hn hread ht =>
    apply h.halted hn h.size_eq h.untouched
    · intro position hx
      cases hx
    · intro q s hx
      obtain ⟨rfl, rfl⟩ : e.state = q ∧ _ = s := by simpa using hx
      exact ⟨rfl, symbol?_eq_some_iff.mpr ⟨_, hread⟩⟩
  | accepted hn hread ht ha => exact h.decided hn hread _ (.inl rfl)
  | rejected hn hread ht ha => exact h.decided hn hread _ (.inr rfl)
  | moved hn hread ht hd hc => exact h.went hn hread _ hd (.inl ⟨rfl, rfl, h.covers_iff.mp hc⟩)
  | left hn hread ht hd hc =>
    exact h.went hn hread _ hd (.inr ⟨rfl, rfl, fun hc' ↦ hc (h.covers_iff.mpr hc')⟩)

end

/-- A run stays on the trail of its launch through every number of steps. -/
theorem trail_iterate_step (m : Machine) (tape : Tape) (head : Int) (k : Nat) :
    Trail m.start tape head (m.step^[k] (m.launch tape head)) :=
  Function.Iterate.rec (Trail m.start tape head) (trail_launch m tape head)
    (fun e h ↦ h.round (m.round_step e)) k

/-- Whatever calls are made on a run, each through any machine, it stays on the trail of its
launch; and once it has halted, further calls return the same halt and change nothing. -/
theorem trail_after (m : Machine) (tape : Tape) (head : Int) (calls : List Call) :
    Trail m.start tape head ((m.launch tape head).after calls) ∧
      (((m.launch tape head).after calls).isHalted = true → ∀ more,
        (m.launch tape head).after (calls ++ more) = (m.launch tape head).after calls) ∧
      (∀ halt, ((m.launch tape head).after calls).halt = some halt → ∀ more (call : Call),
        call.returned ((m.launch tape head).after (calls ++ more)) = .halt halt) := by
  have hstays (h : ((m.launch tape head).after calls).isHalted = true) (more : List Call) :
      (m.launch tape head).after (calls ++ more) = (m.launch tape head).after calls := by
    rw [after, List.foldl_append]
    exact after_of_isHalted h more
  refine ⟨?_, hstays, ?_⟩
  · exact after_preserves (fun m' e h ↦ h.round (m'.round_step e)) calls (trail_launch m tape head)
  · intro halt h more call
    have hhalted : ((m.launch tape head).after calls).isHalted = true := by
      rw [isHalted, h]
      rfl
    rw [hstays hhalted, call.returned_eq, call.make_of_isHalted hhalted, h]
    rfl

/-- A move through one machine, and then a run through another that has no rules. -/
theorem trail_after_edit :
    let tape : Tape := ⟨#[⟨'a', rfl⟩, ⟨'b', rfl⟩]⟩
    let bare : Machine := .blank 1 ⟨0⟩
    let right := bare.define ⟨⟨⟨0⟩, ⟨'a', rfl⟩⟩, ⟨⟨1⟩, ⟨'c', rfl⟩, .moveRight⟩⟩
    let calls : List Call := [.step right, .runBounded bare 5]
    let last := (right.launch tape 0).after calls
    (last.isHalted = true ∧ last.halt = some (.undefined ⟨1⟩ ⟨'b', rfl⟩) ∧ last.steps = 1) ∧
      Trail ⟨0⟩ tape 0 last ∧ (right.launch tape 0).after (calls ++ [.step right]) = last ∧
      (Call.runBounded right 1).returned ((right.launch tape 0).after (calls ++ [.step right])) =
        .halt (.undefined ⟨1⟩ ⟨'b', rfl⟩) := by
  intro tape bare right calls last
  obtain ⟨htrail, hstays, hreturns⟩ := trail_after right tape 0 calls
  have hhalted : last.isHalted = true := by decide
  have hhalt : last.halt = some (.undefined ⟨1⟩ ⟨'b', rfl⟩) := by decide
  exact ⟨⟨hhalted, hhalt, by decide⟩, htrail, hstays hhalted _, hreturns _ hhalt _ _⟩

end Execution

end TapeMachine
