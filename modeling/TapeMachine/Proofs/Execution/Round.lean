import Mathlib.Logic.Function.Iterate
import TapeMachine.Execution

/-!
# Rounds

The reference machine, as a relation between executions with one clause for each way in which a
round can go. The clauses speak of the listed rules, of the tape as a list and of the head as a
number; they call no function of the engine. A step of the engine is a round, and a round leads to
one execution only, so steps and rounds are the same (`rounds_iff_iterate_step`).
-/

namespace TapeMachine

/-- A position is that of a cell. -/
def Tape.Covers (t : Tape) (position : Int) : Prop := 0 ≤ position ∧ position < t.size

/-- The tape with another symbol in the cell numbered `i`. -/
def Tape.overwrite (t : Tape) (i : Nat) (s : Symbol) : Tape := ofList (t.toList.set i s)

/-- The action is a move by this distance. -/
inductive Action.MovesBy : Action → Int → Prop
  | right : MovesBy moveRight 1
  | left : MovesBy moveLeft (-1)

/-- The head is on the cell numbered `i`, which holds `s`. -/
structure Execution.Reads (e : Execution) (i : Nat) (s : Symbol) : Prop where
  head_eq : e.head = i
  cell_eq : e.tape.toList[i]? = some s

namespace Machine

/-- The machine lists a rule that makes `t` in a state on a symbol. -/
def HasRule (m : Machine) (q : State) (s : Symbol) (t : Transition) : Prop :=
  (⟨⟨q, s⟩, t⟩ : Rule) ∈ m.table.rules

/-- One round of the reference machine. -/
inductive Round (m : Machine) : Execution → Execution → Prop
  /-- After a halt nothing changes. -/
  | stopped {e : Execution} {h : Halt} : e.halt = some h → Round m e e
  /-- The head is off the tape before the read. -/
  | outside {e : Execution} : e.halt = none → ¬e.tape.Covers e.head →
      Round m e { e with halt := some (.outOfBounds e.head) }
  /-- No rule fires. -/
  | undefined {e : Execution} {i : Nat} {s : Symbol} : e.halt = none → e.Reads i s →
      (∀ t, ¬m.HasRule e.state s t) → Round m e { e with halt := some (.undefined e.state s) }
  /-- The rule accepts; it writes and does nothing else. -/
  | accepted {e : Execution} {i : Nat} {s : Symbol} {t : Transition} : e.halt = none →
      e.Reads i s → m.HasRule e.state s t → t.action = .accept →
      Round m e { e with tape := e.tape.overwrite i t.write, halt := some .accepted }
  /-- The rule rejects; it writes and does nothing else. -/
  | rejected {e : Execution} {i : Nat} {s : Symbol} {t : Transition} : e.halt = none →
      e.Reads i s → m.HasRule e.state s t → t.action = .reject →
      Round m e { e with tape := e.tape.overwrite i t.write, halt := some .rejected }
  /-- The rule moves the head to another cell. -/
  | moved {e : Execution} {i : Nat} {s : Symbol} {t : Transition} {d : Int} : e.halt = none →
      e.Reads i s → m.HasRule e.state s t → t.action.MovesBy d → e.tape.Covers (e.head + d) →
      Round m e ⟨t.next, e.tape.overwrite i t.write, e.head + d, e.steps + 1, none⟩
  /-- The rule moves the head off the tape: the state is entered and the move is counted, and the
  head stays on its cell. -/
  | left {e : Execution} {i : Nat} {s : Symbol} {t : Transition} {d : Int} : e.halt = none →
      e.Reads i s → m.HasRule e.state s t → t.action.MovesBy d → ¬e.tape.Covers (e.head + d) →
      Round m e ⟨t.next, e.tape.overwrite i t.write, e.head, e.steps + 1,
        some (.outOfBounds (e.head + d))⟩

/-- A number of rounds of the reference machine. -/
inductive Rounds (m : Machine) : Nat → Execution → Execution → Prop
  | zero (e : Execution) : Rounds m 0 e e
  | succ {k : Nat} {e e' e'' : Execution} : Rounds m k e e' → Round m e' e'' →
      Rounds m (k + 1) e e''

/-- A listed rule is what the table has for its trigger. -/
theorem hasRule_iff {m : Machine} {q : State} {s : Symbol} {t : Transition} :
    m.HasRule q s t ↔ m.table.lookup q s = some t :=
  Table.mem_rules_iff

end Machine

/-! ### The engine's view of the tape -/

namespace Tape

/-- A head position has a cell exactly if it is the number of one. -/
theorem index?_eq_some_iff {t : Tape} {position : Int} {i : Fin t.size} :
    t.index? position = some i ↔ position = i.val := by
  obtain ⟨i, hi⟩ := i
  cases position with
  | ofNat n =>
    simp only [index?]
    split
    · simp only [Option.some.injEq, Fin.mk.injEq, Int.ofNat_eq_natCast, Int.natCast_inj]
    · simp only [Int.ofNat_eq_natCast]
      constructor
      · intro h
        cases h
      · intro h
        omega
  | negSucc n => simp [index?]

/-- A head position has no cell exactly if it is off the tape. -/
theorem index?_eq_none_iff {t : Tape} {position : Int} :
    t.index? position = none ↔ ¬t.Covers position := by
  rw [Covers, ← isSome_index?_iff]
  cases t.index? position <;> simp

/-- The symbol in a cell is the one listed at its number. -/
theorem toList_getElem? (t : Tape) (i : Fin t.size) : t.toList[i.val]? = some (t.get i) := by
  have hi : i.val < t.toList.length := by
    rw [length_toList]
    exact i.isLt
  rw [List.getElem?_eq_getElem hi]
  rfl

/-- Writing into a cell overwrites what is listed at its number. -/
theorem write_eq_overwrite (t : Tape) (i : Fin t.size) (s : Symbol) :
    t.write i s = t.overwrite i.val s := by
  apply ext_toList
  rw [toList_write, overwrite, toList_ofList]

/-- Overwriting keeps the number of cells. -/
@[simp] theorem size_overwrite (t : Tape) (i : Nat) (s : Symbol) :
    (t.overwrite i s).size = t.size := by
  rw [← length_toList, overwrite, toList_ofList, List.length_set, length_toList]

/-- The cells after overwriting one of them. -/
@[simp] theorem toList_overwrite (t : Tape) (i : Nat) (s : Symbol) :
    (t.overwrite i s).toList = t.toList.set i s := rfl

/-- Overwriting leaves the positions of the cells as they are. -/
@[simp] theorem covers_overwrite {t : Tape} {i : Nat} {s : Symbol} {position : Int} :
    (t.overwrite i s).Covers position ↔ t.Covers position := by
  rw [Covers, Covers, size_overwrite]

end Tape

namespace Execution

/-- The head reads the symbol of its cell. -/
theorem reads_of_index? {e : Execution} {i : Fin e.tape.size} (h : e.tape.index? e.head = some i) :
    e.Reads i.val (e.tape.get i) :=
  ⟨Tape.index?_eq_some_iff.mp h, e.tape.toList_getElem? i⟩

/-- A head that reads is on the tape. -/
theorem Reads.covers {e : Execution} {i : Nat} {s : Symbol} (h : e.Reads i s) :
    e.tape.Covers e.head := by
  have hi : i < e.tape.toList.length := (List.getElem?_eq_some_iff.mp h.cell_eq).1
  rw [Tape.length_toList] at hi
  rw [Tape.Covers, h.head_eq]
  omega

/-- The cell that is read is one of the tape. -/
theorem Reads.lt_size {e : Execution} {i : Nat} {s : Symbol} (h : e.Reads i s) :
    i < e.tape.size := by
  have hc := h.covers.2
  rw [h.head_eq] at hc
  omega

/-- The head reads one cell, and one symbol in it. -/
theorem Reads.unique {e : Execution} {i j : Nat} {s s' : Symbol} (h : e.Reads i s)
    (h' : e.Reads j s') : i = j ∧ s = s' := by
  have hij : i = j := by
    have := h.head_eq.symm.trans h'.head_eq
    omega
  subst hij
  exact ⟨rfl, Option.some.inj (h.cell_eq.symm.trans h'.cell_eq)⟩

/-- The head reads a symbol exactly if that is the symbol under it. -/
theorem symbol?_eq_some_iff {e : Execution} {s : Symbol} :
    e.symbol? = some s ↔ ∃ i, e.Reads i s := by
  rw [symbol?, Tape.get?, Option.map_eq_some_iff]
  constructor
  · rintro ⟨i, hi, rfl⟩
    exact ⟨i.val, reads_of_index? hi⟩
  · rintro ⟨i, hr⟩
    have hi : i < e.tape.size := by
      have hc := hr.covers
      rw [Tape.Covers, hr.head_eq] at hc
      omega
    have hx : e.tape.index? e.head = some ⟨i, hi⟩ := Tape.index?_eq_some_iff.mpr hr.head_eq
    exact ⟨_, hx, ((reads_of_index? hx).unique hr).2⟩

end Execution

namespace Turn

variable {q : State} {tape : Tape} {head target : Int} {steps : Nat}

/-- A move to a cell takes the head there. -/
theorem execution_move_of_covers (h : tape.Covers target) :
    (move q tape head target steps).execution = ⟨q, tape, target, steps + 1, none⟩ := by
  rw [move]
  split
  · rfl
  · next hi => exact absurd h (Tape.index?_eq_none_iff.mp hi)

/-- A move off the tape ends the run with the head where it was. -/
theorem execution_move_of_not_covers (h : ¬tape.Covers target) :
    (move q tape head target steps).execution =
      ⟨q, tape, head, steps + 1, some (.outOfBounds target)⟩ := by
  rw [move, Tape.index?_eq_none_iff.mpr h]
  rfl

end Turn

/-- An action either halts or moves. -/
theorem Action.isHalting_eq_false_iff {a : Action} : a.isHalting = false ↔ ∃ d, a.MovesBy d := by
  constructor
  · intro h
    cases a with
    | moveRight => exact ⟨1, .right⟩
    | moveLeft => exact ⟨-1, .left⟩
    | accept => cases h
    | reject => cases h
  · rintro ⟨d, hd⟩
    cases hd <;> rfl

/-! ### A step is a round -/

namespace Machine

variable {m : Machine}

private theorem round_moved {e : Execution} {i : Fin e.tape.size} {t : Transition} {d : Int}
    (hn : e.halt = none) (hr : e.Reads i.val (e.tape.get i))
    (ht : m.HasRule e.state (e.tape.get i) t) (hd : t.action.MovesBy d) :
    m.Round e (Turn.move t.next (e.tape.write i t.write) e.head (e.head + d) e.steps).execution := by
  rw [Tape.write_eq_overwrite]
  by_cases hc : e.tape.Covers (e.head + d)
  · rw [Turn.execution_move_of_covers (Tape.covers_overwrite.mpr hc)]
    exact .moved hn hr ht hd hc
  · rw [Turn.execution_move_of_not_covers (fun h ↦ hc (Tape.covers_overwrite.mp h))]
    exact .left hn hr ht hd hc

/-- A step of the engine is a round of the reference machine. -/
theorem round_step (m : Machine) (e : Execution) : m.Round e (m.step e) := by
  obtain ⟨q, tape, head, steps, halt⟩ := e
  cases halt with
  | some h => exact .stopped rfl
  | none =>
    simp only [step, turn]
    split
    · next hi => exact .outside rfl (Tape.index?_eq_none_iff.mp hi)
    · next i hi =>
      have hr : Execution.Reads ⟨q, tape, head, steps, none⟩ i.val (tape.get i) :=
        Execution.reads_of_index? hi
      split
      · next hl =>
        refine .undefined rfl hr fun t ht ↦ ?_
        rw [hasRule_iff, hl] at ht
        cases ht
      · next t hl =>
        have ht : m.HasRule q (tape.get i) t := hasRule_iff.mpr hl
        split
        · next ha => exact round_moved rfl hr ht (ha ▸ .right)
        · next ha => exact round_moved rfl hr ht (ha ▸ .left)
        · next ha => rw [Tape.write_eq_overwrite]; exact .accepted rfl hr ht ha
        · next ha => rw [Tape.write_eq_overwrite]; exact .rejected rfl hr ht ha

private theorem step_of_reads {q : State} {tape : Tape} {head : Int} {steps i : Nat} {s : Symbol}
    (hr : Execution.Reads ⟨q, tape, head, steps, none⟩ i s) :
    ∃ cell, tape.index? head = some cell ∧ cell.val = i ∧ tape.get cell = s := by
  obtain ⟨c, hc⟩ := Option.isSome_iff_exists.mp (Tape.isSome_index?_iff.mpr hr.covers)
  have h := (Execution.reads_of_index? (e := ⟨q, tape, head, steps, none⟩) hc).unique hr
  exact ⟨c, hc, h⟩

private theorem step_of_movesBy {q : State} {tape : Tape} {head : Int} {steps : Nat}
    {cell : Fin tape.size} {t : Transition} {d : Int} (hi : tape.index? head = some cell)
    (hl : m.table.lookup q (tape.get cell) = some t) (hd : t.action.MovesBy d) :
    m.step ⟨q, tape, head, steps, none⟩ =
      (Turn.move t.next (tape.write cell t.write) head (head + d) steps).execution := by
  obtain ⟨next, write, action⟩ := t
  simp only [step, turn, hi, hl]
  cases hd <;> rfl

/-- A round of the reference machine is a step of the engine. -/
theorem Round.eq_step {e e' : Execution} (h : m.Round e e') : e' = m.step e := by
  obtain ⟨q, tape, head, steps, halt⟩ := e
  cases h with
  | stopped hh =>
    rw [step_of_isHalted]
    rw [Execution.isHalted, hh]
    rfl
  | outside hn hc =>
    subst hn
    simp only [step, turn, Tape.index?_eq_none_iff.mpr hc, Turn.stop]
  | undefined hn hr ht =>
    subst hn
    obtain ⟨cell, hi, -, rfl⟩ := step_of_reads hr
    have hl : m.table.lookup q (tape.get cell) = none := by
      simpa [hasRule_iff, Option.eq_none_iff_forall_ne_some] using ht
    simp only [step, turn, hi, hl, Turn.stop]
  | accepted hn hr ht ha =>
    subst hn
    obtain ⟨cell, hi, rfl, rfl⟩ := step_of_reads hr
    simp only [step, turn, hi, hasRule_iff.mp ht, ha, Turn.stop, Tape.write_eq_overwrite]
  | rejected hn hr ht ha =>
    subst hn
    obtain ⟨cell, hi, rfl, rfl⟩ := step_of_reads hr
    simp only [step, turn, hi, hasRule_iff.mp ht, ha, Turn.stop, Tape.write_eq_overwrite]
  | moved hn hr ht hd hc =>
    subst hn
    obtain ⟨cell, hi, rfl, rfl⟩ := step_of_reads hr
    rw [step_of_movesBy hi (hasRule_iff.mp ht) hd,
      Turn.execution_move_of_covers (Tape.write_eq_overwrite .. ▸ Tape.covers_overwrite.mpr hc),
      Tape.write_eq_overwrite]
  | left hn hr ht hd hc =>
    subst hn
    obtain ⟨cell, hi, rfl, rfl⟩ := step_of_reads hr
    rw [step_of_movesBy hi (hasRule_iff.mp ht) hd,
      Turn.execution_move_of_not_covers
        (fun h ↦ hc (Tape.covers_overwrite.mp (Tape.write_eq_overwrite .. ▸ h))),
      Tape.write_eq_overwrite]

/-- Rounds and steps of the same number lead to the same execution. -/
theorem rounds_iff_iterate_step {k : Nat} {e e' : Execution} :
    m.Rounds k e e' ↔ e' = m.step^[k] e := by
  constructor
  · intro h
    induction h with
    | zero => rfl
    | succ _ hr ih => rw [Function.iterate_succ_apply', ← ih, hr.eq_step]
  · rintro rfl
    induction k with
    | zero => exact .zero e
    | succ k ih =>
      rw [Function.iterate_succ_apply']
      exact .succ ih (round_step m _)

end Machine

end TapeMachine
