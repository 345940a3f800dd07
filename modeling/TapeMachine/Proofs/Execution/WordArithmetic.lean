import TapeMachine.Proofs.Execution.Budget
import TapeMachine.Proofs.Execution.Calls

/-!
# Runs in words

An engine that holds head positions and counts in words of 64 bits cannot hold every sum. The sums
of a run under a budget are such that it can, on a tape whose cells have positions in words: the
head is on the tape before it is moved, and no move is made when the count has reached the limit,
which is a word (`StepsOn.steps_lt`). So whatever happens to other sums, a run under a budget is the
same in words (`runBounded_in_words`).
-/

namespace TapeMachine

/-- Sums that fit into words are computed as they are. Others may come out as anything, or as
nothing at all. -/
structure WordArithmetic where
  /-- The position behind a position. -/
  right : Int → Option Int
  /-- The position before a position. -/
  left : Int → Option Int
  /-- The count after one more move. -/
  count : Nat → Option Nat
  right_eq : ∀ p, minPosition ≤ p + 1 → p + 1 ≤ maxPosition → right p = some (p + 1)
  left_eq : ∀ p, minPosition ≤ p - 1 → p - 1 ≤ maxPosition → left p = some (p - 1)
  count_eq : ∀ n, n < maxCount → count n = some (n + 1)

namespace WordArithmetic

/-- Sums wrap around. -/
def wrapping : WordArithmetic where
  right p := some ((p + 1).bmod 0x10000000000000000)
  left p := some ((p - 1).bmod 0x10000000000000000)
  count n := some ((n + 1) % 0x10000000000000000)
  right_eq p hmin hmax := by
    simp only [minPosition, maxPosition] at hmin hmax
    rw [Int.bmod_eq_of_le (by omega) (by omega)]
  left_eq p hmin hmax := by
    simp only [minPosition, maxPosition] at hmin hmax
    rw [Int.bmod_eq_of_le (by omega) (by omega)]
  count_eq n hmax := by
    simp only [maxCount] at hmax
    rw [Nat.mod_eq_of_lt (by omega)]

/-- A sum that does not fit stops the engine. -/
def checked : WordArithmetic where
  right p := if p < maxPosition then some (p + 1) else none
  left p := if minPosition < p then some (p - 1) else none
  count n := if n < maxCount then some (n + 1) else none
  right_eq p _ hmax := if_pos (by omega)
  left_eq p hmin _ := if_pos (by omega)
  count_eq n hmax := if_pos hmax

end WordArithmetic

namespace Machine

variable {m : Machine} {a : WordArithmetic} {limit : Nat} {e e' last : Execution}

/-- A move of an engine that computes in words. -/
def moveIn (a : WordArithmetic) (q : State) (tape : Tape) (head : Int) (target? : Option Int)
    (steps : Nat) : Option Execution := do
  let target ← target?
  let count ← a.count steps
  return { (Turn.move q tape head target steps).execution with steps := count }

/-- One step of an engine that computes in words, unless a sum stops it. -/
def stepIn (a : WordArithmetic) (m : Machine) : Execution → Option Execution
  | ⟨state, tape, head, steps, some halt⟩ => some ⟨state, tape, head, steps, some halt⟩
  | ⟨state, tape, head, steps, none⟩ =>
    match tape.index? head with
    | none => some ⟨state, tape, head, steps, some (.outOfBounds head)⟩
    | some cell =>
      let symbol := tape.get cell
      match m.table.lookup state symbol with
      | none => some ⟨state, tape, head, steps, some (.undefined state symbol)⟩
      | some t =>
        match t.action with
        | .moveRight => moveIn a t.next (tape.write cell t.write) head (a.right head) steps
        | .moveLeft => moveIn a t.next (tape.write cell t.write) head (a.left head) steps
        | .accept => some ⟨state, tape.write cell t.write, head, steps, some .accepted⟩
        | .reject => some ⟨state, tape.write cell t.write, head, steps, some .rejected⟩

/-- The loop of a run under a limit, in an engine that computes in words. -/
inductive LoopIn (a : WordArithmetic) (m : Machine) (limit : Nat) : Execution → Execution → Prop
  /-- The run is given up. -/
  | givenUp {e : Execution} : limit ≤ e.steps → m.movesNext e = true → LoopIn a m limit e e
  /-- The step halts. -/
  | halted {e e' : Execution} : ¬(limit ≤ e.steps ∧ m.movesNext e = true) →
      m.stepIn a e = some e' → e'.isHalted = true → LoopIn a m limit e e'
  /-- The step moves and the run goes on. -/
  | again {e e' last : Execution} : ¬(limit ≤ e.steps ∧ m.movesNext e = true) →
      m.stepIn a e = some e' → e'.isHalted = false → LoopIn a m limit e' last →
      LoopIn a m limit e last

/-- The executions on which the loop of a run under a limit takes a step. -/
inductive StepsOn (m : Machine) (limit : Nat) : Execution → Execution → Prop
  | first {e : Execution} : ¬(limit ≤ e.steps ∧ m.movesNext e = true) → StepsOn m limit e e
  | later {e e' : Execution} : ¬(limit ≤ e.steps ∧ m.movesNext e = true) →
      (m.step e).isHalted = false → StepsOn m limit (m.step e) e' → StepsOn m limit e e'

/-! ### The sums of a step -/

/-- A step keeps the number of cells. -/
theorem size_step (m : Machine) (e : Execution) : (m.step e).tape.size = e.tape.size := by
  have hround := m.round_step e
  generalize m.step e = e' at hround
  cases hround <;> simp

/-- A step computes nothing, or it counts a move and sends the head from a cell to a neighbour. -/
theorem sums_step (m : Machine) (e : Execution) :
    ((m.step e).steps = e.steps ∧ (m.step e).head = e.head) ∨
      (m.movesNext e = true ∧ e.tape.Covers e.head ∧ (m.step e).steps = e.steps + 1 ∧
        ((m.step e).sent = e.head + 1 ∨ (m.step e).sent = e.head - 1)) := by
  have hround := m.round_step e
  generalize m.step e = e' at hround
  have hnear {action : Action} {d : Int} (hd : action.MovesBy d) :
      e.head + d = e.head + 1 ∨ e.head + d = e.head - 1 := by
    cases hd with
    | right => exact .inl rfl
    | left => exact .inr rfl
  cases hround with
  | stopped | outside | undefined | accepted | rejected => exact .inl ⟨rfl, rfl⟩
  | moved hn hr ht hd hc | left hn hr ht hd hc =>
    exact .inr ⟨movesNext_iff.mpr ⟨hn, _, _, _, _, hr, ht, hd⟩, hr.covers, rfl, hnear hd⟩

/-- A loop makes no move from a count that has reached the limit. -/
theorem StepsOn.steps_lt (h : m.StepsOn limit e e') (hmoves : m.movesNext e' = true) :
    e'.steps < limit := by
  induction h with
  | first hgo => exact Nat.lt_of_not_le fun hle ↦ hgo ⟨hle, hmoves⟩
  | later _ _ _ ih => exact ih hmoves

/-- All the executions of a loop have tapes of the same size. -/
theorem StepsOn.size_eq (h : m.StepsOn limit e e') : e'.tape.size = e.tape.size := by
  induction h with
  | first => rfl
  | later _ _ _ ih => rw [ih, size_step]

/-! ### An engine that computes in words -/

private theorem moveIn_eq {q : State} {tape : Tape} {head target : Int} {steps : Nat}
    (h : steps < maxCount) : moveIn a q tape head (some target) steps =
      some (Turn.move q tape head target steps).execution := by
  have hmoved : { (Turn.move q tape head target steps).execution with steps := steps + 1 } =
      (Turn.move q tape head target steps).execution := by
    rw [Turn.move]
    cases tape.index? target <;> rfl
  rw [moveIn, a.count_eq steps h]
  exact congrArg some hmoved

/-- A step in words is a step, if the positions of the cells are words and so is the next count. -/
theorem stepIn_eq (hsize : e.tape.size ≤ maxPosition)
    (hcount : m.movesNext e = true → e.steps < maxCount) : m.stepIn a e = some (m.step e) := by
  obtain ⟨q, tape, head, steps, halt⟩ := e
  cases halt with
  | some halt => rfl
  | none =>
    have hsize' : (tape.size : Int) ≤ maxPosition := hsize
    simp only [stepIn, step, turn]
    cases hi : tape.index? head with
    | none => rfl
    | some cell =>
      have hhead : head = cell.val := Tape.index?_eq_some_iff.mp hi
      have hcell : cell.val < tape.size := cell.isLt
      cases hl : m.table.lookup q (tape.get cell) with
      | none =>
        simp only [hl]
        rfl
      | some t =>
        have hcount' (hmoving : t.action.isHalting = false) : steps < maxCount := by
          apply hcount
          simp [movesNext, Execution.isHalted, Execution.symbol?, Tape.get?, hi, hl, hmoving]
        simp only [hl]
        cases ha : t.action with
        | moveRight =>
          have hright : a.right head = some (head + 1) :=
            a.right_eq head (by simp only [minPosition]; omega) (by omega)
          simp only [hright, moveIn_eq (hcount' (ha ▸ rfl))]
        | moveLeft =>
          have hleft : a.left head = some (head - 1) :=
            a.left_eq head (by simp only [minPosition]; omega) (by omega)
          simp only [hleft, moveIn_eq (hcount' (ha ▸ rfl))]
        | accept => rfl
        | reject => rfl

/-- A loop in words ends where the loop ends, if its limit and the positions of the cells are words.
-/
theorem loopIn_iff (hsize : e.tape.size ≤ maxPosition) (hlimit : limit ≤ maxCount) :
    m.LoopIn a limit e last ↔ m.BoundedLoop limit e last := by
  have hstep {e : Execution} (hsize : e.tape.size ≤ maxPosition)
      (hgo : ¬(limit ≤ e.steps ∧ m.movesNext e = true)) : m.stepIn a e = some (m.step e) :=
    stepIn_eq hsize fun hmoves ↦
      Nat.lt_of_lt_of_le (Nat.lt_of_not_le fun hle ↦ hgo ⟨hle, hmoves⟩) hlimit
  constructor
  · intro h
    induction h with
    | givenUp hl hm => exact .givenUp hl hm
    | halted hgo hs hh =>
      obtain rfl := Option.some.inj ((hstep hsize hgo).symm.trans hs)
      exact .halted hgo hh
    | again hgo hs hh _ ih =>
      obtain rfl := Option.some.inj ((hstep hsize hgo).symm.trans hs)
      exact .again hgo hh (ih (by rwa [size_step]))
  · intro h
    induction h with
    | givenUp hl hm => exact .givenUp hl hm
    | halted hgo hh => exact .halted hgo (hstep hsize hgo) hh
    | again hgo hh _ ih => exact .again hgo (hstep hsize hgo) hh (ih (by rwa [size_step]))

/-! ### Runs under a budget -/

/-- The count of a run under a budget stays a word. -/
theorem steps_runBounded_le_maxCount (hsteps : e.steps ≤ maxCount) (budget : Nat) :
    (m.runBounded budget e).steps ≤ maxCount := by
  have h := m.steps_runFor_le (min (e.steps + budget) maxCount - e.steps) e
  rw [runBounded]
  omega

/-- A run under a budget may be made in words. On a tape whose size is a head position, whatever the
state, the head and the count are, every step of its loop computes nothing, or it computes the
position of a cell or of one of the two places next to the tape, and a count that is a word. So an
engine that computes in words ends with the same execution, whatever it makes of sums that do not
fit; and the count at the end has gone up by the budget at most. -/
theorem runBounded_in_words (m : Machine) (e : Execution) (budget : Nat)
    (hsize : e.tape.size ≤ maxPosition) (hsteps : e.steps ≤ maxCount) :
    let limit := min (e.steps + budget) maxCount
    let last := m.runBounded budget e
    (∀ e', m.StepsOn limit e e' →
      (m.step e').steps = e'.steps ∧ (m.step e').head = e'.head ∨
      ((m.step e').sent = e'.head + 1 ∨ (m.step e').sent = e'.head - 1) ∧
        (-1 ≤ (m.step e').sent ∧ (m.step e').sent ≤ e.tape.size) ∧
        (minPosition ≤ (m.step e').sent ∧ (m.step e').sent ≤ maxPosition) ∧
        e'.steps < maxCount ∧ (m.step e').steps = e'.steps + 1) ∧
    (∀ (a : WordArithmetic) (last' : Execution), m.LoopIn a limit e last' ↔ last' = last) ∧
    last.steps ≤ e.steps + budget ∧ last.steps ≤ maxCount := by
  intro limit last
  have hlimit : limit ≤ maxCount := Nat.min_le_right _ _
  refine ⟨fun e' he' ↦ ?_, fun a last' ↦ (loopIn_iff hsize hlimit).trans boundedLoop_iff,
    m.steps_runBounded_le budget e, steps_runBounded_le_maxCount hsteps budget⟩
  rcases m.sums_step e' with hnone | ⟨hmoves, hcovers, hcount, hsent⟩
  · exact .inl hnone
  · have hlt : e'.steps < maxCount := Nat.lt_of_lt_of_le (he'.steps_lt hmoves) hlimit
    obtain ⟨hmin, hmax⟩ := hcovers
    rw [he'.size_eq] at hmax
    have hnext : -1 ≤ (m.step e').sent ∧ (m.step e').sent ≤ e.tape.size := by omega
    have hword : minPosition ≤ (m.step e').sent ∧ (m.step e').sent ≤ maxPosition := by
      simp only [minPosition]
      omega
    exact .inr ⟨hsent, hnext, hword, hlt, hcount⟩

/-- From the last count but one the shuttle makes a move off the tape. The count is then the
greatest word, and the head was sent to the size of the tape. -/
theorem runBounded_in_words_shuttle :
    let tape : Tape := ⟨#[⟨'a', .refl true⟩, ⟨'a', .refl true⟩]⟩
    let e : Execution := ⟨⟨0⟩, tape, 1, maxCount - 1, none⟩
    let limit := min (e.steps + 7) maxCount
    let last : Execution := ⟨⟨1⟩, tape, 1, maxCount, some (.outOfBounds 2)⟩
    (e.tape.size ≤ maxPosition ∧ e.steps ≤ maxCount ∧ shuttle.StepsOn limit e e ∧
      shuttle.runBounded 7 e = last) ∧
    (shuttle.step e).sent ≤ e.tape.size ∧ shuttle.LoopIn .wrapping limit e last ∧
      shuttle.LoopIn .checked limit e last ∧ last.steps ≤ e.steps + 7 := by
  intro tape e limit last
  have hsize : e.tape.size ≤ maxPosition := by decide
  have hsteps : e.steps ≤ maxCount := by decide
  have hfirst : shuttle.StepsOn limit e e := .first (by decide)
  have hlast : shuttle.runBounded 7 e = last := by decide
  obtain ⟨hsums, hloop, hcount, -⟩ := runBounded_in_words shuttle e 7 hsize hsteps
  have hsent : (shuttle.step e).sent ≤ e.tape.size := by
    rcases hsums e hfirst with ⟨hsame, -⟩ | ⟨-, ⟨-, hmax⟩, -⟩
    · exact absurd hsame (by decide)
    · exact hmax
  rw [hlast] at hloop hcount
  exact ⟨⟨hsize, hsteps, hfirst, hlast⟩, hsent, (hloop .wrapping last).mpr rfl,
    (hloop .checked last).mpr rfl, hcount⟩

end Machine

end TapeMachine
