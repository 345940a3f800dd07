import TapeMachine.Proofs.Catalogue.Entries
import TapeMachine.Proofs.Execution.Run

/-!
# The machine that turns a's into b's

The machine looks for an `a` to its right, makes one move more, and comes back to turn an `a` into a
`b`. So the head goes to and fro, but no `a` is written, and the search goes back only after an `a`
is gone. An `a` is given an allowance of moves that pays for this, which bounds the moves of every
run by the tape alone (`rewriteA_halts`).
-/

namespace TapeMachine.Catalogue

variable {t : Tape} {i limit : Nat} {q : State} {s : Symbol} {tr : Transition} {d : Int}
  {e : Execution}

/-! ### Tapes -/

/-- The moves that are granted for a tape: some for each `a`, and one for each cell. -/
def allowance (t : Tape) : Nat := (t.size + 2) * t.toList.count letterA + t.size

theorem size_le_allowance (t : Tape) : t.size ≤ allowance t := Nat.le_add_left _ _

/-- A tape with an `a` has the allowance for one. -/
theorem le_allowance_of_letterA (h : t.toList[i]? = some letterA) :
    2 * t.size + 2 ≤ allowance t := by
  have hcount : 1 ≤ t.toList.count letterA := List.one_le_count_iff.mpr (List.mem_of_getElem? h)
  have hmul := Nat.mul_le_mul_left (t.size + 2) hcount
  rw [allowance]
  omega

/-- The allowance for an `a` is spent when it is turned into a `b`. -/
theorem allowance_overwrite_letterB (h : t.toList[i]? = some letterA) :
    allowance (t.overwrite i letterB) + (t.size + 2) = allowance t := by
  obtain ⟨hi, hs⟩ := List.getElem?_eq_some_iff.mp h
  have hpos : 1 ≤ t.toList.count letterA := List.one_le_count_iff.mpr (List.mem_of_getElem? h)
  have hcount : (t.overwrite i letterB).toList.count letterA + 1 = t.toList.count letterA := by
    rw [Tape.toList_overwrite, List.count_set hi, hs, if_pos (by decide), if_neg (by decide)]
    omega
  rw [allowance, allowance, Tape.size_overwrite, ← hcount, Nat.mul_succ]
  omega

/-- To write the symbol that a cell holds changes nothing. -/
theorem overwrite_of_getElem? (h : t.toList[i]? = some s) : t.overwrite i s = t := by
  obtain ⟨hi, rfl⟩ := List.getElem?_eq_some_iff.mp h
  rw [Tape.overwrite, List.set_getElem_self, Tape.ofList_toList]

/-! ### Moves -/

/-- The rules of the machine that move its head. -/
inductive RewriteAMoves : State → Symbol → Transition → Int → Prop
  /-- An `a` is found. -/
  | find : RewriteAMoves ⟨0⟩ letterA ⟨⟨1⟩, letterA, .moveRight⟩ 1
  /-- The search goes on behind a `b`. -/
  | pass : RewriteAMoves ⟨0⟩ letterB ⟨⟨0⟩, letterB, .moveRight⟩ 1
  /-- An `a` is turned into a `b`. -/
  | turn : RewriteAMoves ⟨1⟩ letterA ⟨⟨0⟩, letterB, .moveLeft⟩ (-1)
  /-- The head goes back over a `b`. -/
  | back : RewriteAMoves ⟨1⟩ letterB ⟨⟨1⟩, letterB, .moveLeft⟩ (-1)

/-- These are rules of the machine. -/
theorem RewriteAMoves.hasRule (h : RewriteAMoves q s tr d) : rewriteAMachine.HasRule q s tr := by
  rw [Machine.hasRule_iff]
  cases h <;> decide

/-- The machine has no other rules that move its head. -/
theorem rewriteAMoves_of_hasRule (h : rewriteAMachine.HasRule q s tr) (hd : tr.action.MovesBy d) :
    RewriteAMoves q s tr d := by
  have hmem := mem_of_hasRule_machineOf h
  simp only [List.mem_cons, List.not_mem_nil, or_false, rule, Rule.mk.injEq, Trigger.mk.injEq]
    at hmem
  rcases hmem with ⟨⟨rfl, rfl⟩, rfl⟩ | ⟨⟨rfl, rfl⟩, rfl⟩ | ⟨⟨rfl, rfl⟩, rfl⟩ | ⟨⟨rfl, rfl⟩, rfl⟩ |
    ⟨⟨rfl, rfl⟩, rfl⟩ | ⟨⟨rfl, rfl⟩, rfl⟩
  · cases hd
    exact .find
  · cases hd
    exact .pass
  · cases hd
  · cases hd
    exact .turn
  · cases hd
    exact .back
  · cases hd

/-! ### Runs within the allowance -/

/-- A run keeps to a limit of moves: what it has made and what it is still granted are within the
limit, where the cells that the search has left behind are granted nothing more. -/
inductive Keeps (limit : Nat) : Execution → Prop
  /-- The run has stopped. -/
  | halted {e : Execution} : e.isHalted = true → e.steps ≤ limit → Keeps limit e
  /-- The head looks for an `a`. -/
  | looking {e : Execution} {i : Nat} : e.halt = none → e.state = ⟨0⟩ → e.head = i →
      i < e.tape.size → e.steps + allowance e.tape ≤ limit + i → Keeps limit e
  /-- The head is one cell behind an `a`. -/
  | behind {e : Execution} {i : Nat} : e.halt = none → e.state = ⟨1⟩ → e.head = i + 1 →
      i + 1 < e.tape.size → e.tape.toList[i]? = some letterA →
      e.steps + allowance e.tape ≤ limit + (i + 1) → Keeps limit e
  /-- The head has come back to an `a`. -/
  | returned {e : Execution} {i : Nat} : e.halt = none → e.state = ⟨1⟩ → e.head = i →
      i + 1 < e.tape.size → e.tape.toList[i]? = some letterA →
      e.steps + allowance e.tape ≤ limit + (i + 2) → Keeps limit e

/-- A run that keeps to a limit has made at most so many moves. -/
theorem Keeps.steps_le (h : Keeps limit e) : e.steps ≤ limit := by
  have hsize := size_le_allowance e.tape
  cases h with
  | halted _ hsteps => exact hsteps
  | looking => omega
  | behind => omega
  | returned _ _ _ _ hletter =>
    have := le_allowance_of_letterA hletter
    omega

/-- A move of the machine is within the limit, and on the tape the run keeps to it. -/
theorem Keeps.move (h : Keeps limit e) {j : Nat} (hn : e.halt = none) (hread : e.Reads j s)
    (hmove : RewriteAMoves e.state s tr d) :
    e.steps + 1 ≤ limit ∧ (e.tape.Covers (e.head + d) →
      Keeps limit ⟨tr.next, e.tape.overwrite j tr.write, e.head + d, e.steps + 1, none⟩) := by
  obtain ⟨hhead, hcell⟩ := hread
  have hsize := size_le_allowance e.tape
  cases h with
  | halted hh =>
    rw [Execution.isHalted, hn] at hh
    cases hh
  | @looking i _ hq hi hlt hbound =>
    obtain rfl : i = j := by omega
    rw [hq] at hmove
    cases hmove with
    | find =>
      rw [overwrite_of_getElem? hcell]
      refine ⟨by omega, fun hc ↦ ?_⟩
      have hnext : e.head + 1 = i + 1 := by omega
      have hon : i + 1 < e.tape.size := by have := hc.2; omega
      have hbound' : e.steps + 1 + allowance e.tape ≤ limit + (i + 1) := by omega
      exact .behind rfl rfl hnext hon hcell hbound'
    | pass =>
      rw [overwrite_of_getElem? hcell]
      refine ⟨by omega, fun hc ↦ ?_⟩
      have hnext : e.head + 1 = (i + 1 : Nat) := by omega
      have hon : i + 1 < e.tape.size := by have := hc.2; omega
      have hbound' : e.steps + 1 + allowance e.tape ≤ limit + (i + 1) := by omega
      exact .looking rfl rfl hnext hon hbound'
  | @behind i _ hq hi hlt hletter hbound =>
    obtain rfl : i + 1 = j := by omega
    rw [hq] at hmove
    have hback : e.head + -1 = i := by omega
    cases hmove with
    | turn =>
      have hspent := allowance_overwrite_letterB hcell
      have hon : i < (e.tape.overwrite (i + 1) letterB).size := by
        rw [Tape.size_overwrite]
        omega
      have hbound' : e.steps + 1 + allowance (e.tape.overwrite (i + 1) letterB) ≤ limit + i := by
        omega
      exact ⟨by omega, fun _ ↦ .looking rfl rfl hback hon hbound'⟩
    | back =>
      rw [overwrite_of_getElem? hcell]
      have hbound' : e.steps + 1 + allowance e.tape ≤ limit + (i + 2) := by omega
      exact ⟨by omega, fun _ ↦ .returned rfl rfl hback hlt hletter hbound'⟩
  | @returned i _ hq hi hlt hletter hbound =>
    obtain rfl : i = j := by omega
    rw [hq] at hmove
    obtain rfl : s = letterA := Option.some.inj (hcell.symm.trans hletter)
    cases hmove with
    | turn =>
      have hspent := allowance_overwrite_letterB hcell
      refine ⟨by omega, fun hc ↦ ?_⟩
      have hpos : 1 ≤ i := by have := hc.1; omega
      have hnext : e.head + -1 = (i - 1 : Nat) := by omega
      have hon : i - 1 < (e.tape.overwrite i letterB).size := by
        rw [Tape.size_overwrite]
        omega
      have hbound' : e.steps + 1 + allowance (e.tape.overwrite i letterB) ≤ limit + (i - 1) := by
        omega
      exact .looking rfl rfl hnext hon hbound'

/-- A step of the machine keeps to the limit. -/
theorem Keeps.step (h : Keeps limit e) : Keeps limit (rewriteAMachine.step e) := by
  have hround := rewriteAMachine.round_step e
  generalize rewriteAMachine.step e = e' at hround
  cases hround with
  | stopped => exact h
  | outside | undefined | accepted | rejected => exact .halted rfl h.steps_le
  | moved hn hread hrule hd hc => exact (h.move hn hread (rewriteAMoves_of_hasRule hrule hd)).2 hc
  | left hn hread hrule hd =>
    exact .halted rfl (h.move hn hread (rewriteAMoves_of_hasRule hrule hd)).1

/-- So does every run. -/
theorem Keeps.iterate_step (h : Keeps limit e) (k : Nat) :
    Keeps limit (rewriteAMachine.step^[k] e) :=
  Function.Iterate.rec (Keeps limit) h (fun _ ↦ Keeps.step) k

/-- After its first step a run keeps to the allowance for its tape, wherever it begins. -/
theorem keeps_step_launch (t : Tape) (head : Int) :
    Keeps (allowance t) (rewriteAMachine.step (rewriteAMachine.launch t head)) := by
  by_cases hc : t.Covers head
  · obtain ⟨i, rfl⟩ := Int.eq_ofNat_of_zero_le hc.1
    have hlt : i < t.size := by have := hc.2; omega
    have hbound : 0 + allowance t ≤ allowance t + i := by omega
    have hlooking : Keeps (allowance t) (rewriteAMachine.launch t i) :=
      .looking rfl rfl rfl hlt hbound
    exact hlooking.step
  · have hround : rewriteAMachine.Round (rewriteAMachine.launch t head)
        { rewriteAMachine.launch t head with halt := some (.outOfBounds head) } :=
      .outside rfl hc
    rw [← hround.eq_step]
    exact .halted rfl (Nat.zero_le _)

/-- The moves of a run are within the allowance for its tape. -/
theorem steps_le_allowance (t : Tape) (head : Int) (k : Nat) :
    (rewriteAMachine.step^[k] (rewriteAMachine.launch t head)).steps ≤ allowance t := by
  cases k with
  | zero => exact Nat.zero_le _
  | succ k =>
    rw [Function.iterate_succ_apply]
    exact ((keeps_step_launch t head).iterate_step k).steps_le

/-- The allowance is granted for as many a's as there are cells at most. -/
theorem allowance_le (t : Tape) : allowance t ≤ t.size * t.size + 3 * t.size := by
  have hcount : t.toList.count letterA ≤ t.size := t.length_toList ▸ List.count_le_length
  calc allowance t ≤ (t.size + 2) * t.size + t.size :=
        Nat.add_le_add_right (Nat.mul_le_mul_left _ hcount) _
    _ = t.size * t.size + 3 * t.size := by
        rw [Nat.add_mul]
        omega

/-- "Rewrite a's" halts on every tape of `n` cells from every head position, after `n * n + 3 * n`
moves at most. -/
theorem rewriteA_halts : ∃ p, programNamed "Rewrite a's" = .ok p ∧ p.name = "Rewrite a's" ∧
    ∀ (tape : Tape) (head : Int), ∃ o, p.machine.run tape head = some o ∧
      o.steps ≤ tape.size * tape.size + 3 * tape.size := by
  have hfind : machines.find? (fun n ↦ sameName n.1 "Rewrite a's") =
      some ("Rewrite a's", rewriteAMachine) := by decide
  obtain ⟨p, hp, hname, hm⟩ := exists_programNamed hfind
  refine ⟨p, hp, hname, fun tape head ↦ ?_⟩
  rw [hm]
  have hsteps := steps_le_allowance tape head
  obtain ⟨last, k, hlast, hhalted⟩ := Machine.exists_endsIn_of_steps_le hsteps
  obtain ⟨halt, hhalt⟩ := Option.isSome_iff_exists.mp hhalted
  have ho : last.outcome? = some ⟨halt, last.state, last.tape, last.head, last.steps⟩ := by
    rw [Execution.outcome?, hhalt]
    rfl
  refine ⟨_, Machine.run_eq_some_iff.mpr ⟨last, ⟨k, hlast, hhalted⟩, ho⟩, ?_⟩
  calc last.steps ≤ allowance tape := hlast ▸ hsteps k
    _ ≤ tape.size * tape.size + 3 * tape.size := allowance_le tape

/-- The run on `aaa` goes off the left end of the tape. -/
example : rewriteAMachine.run ⟨#[letterA, letterA, letterA]⟩ 0 =
    some ⟨.outOfBounds (-1), ⟨0⟩, ⟨#[letterB, letterB, letterA]⟩, 0, 5⟩ := by
  decide

end TapeMachine.Catalogue
