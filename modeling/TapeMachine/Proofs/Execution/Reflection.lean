import Mathlib.Data.List.Basic
import TapeMachine.Proofs.Execution.Run

/-!
# Left and right

A machine whose moves to the right and to the left are exchanged runs on the reversed tape as the
machine itself on the tape: the two ends of a tape are treated alike. One round of the one is the
reflection of a round of the other (`Round.reflect`), and so are their runs (`run_reflected`).
-/

namespace TapeMachine

/-! ### Reflections -/

/-- The move in the other direction. -/
def Action.reflect : Action → Action
  | moveRight => moveLeft
  | moveLeft => moveRight
  | accept => accept
  | reject => reject

/-- The transition with its move in the other direction. -/
def Transition.reflect (t : Transition) : Transition := { t with action := t.action.reflect }

/-- The rule with its move in the other direction. -/
def Rule.reflect (r : Rule) : Rule := { r with transition := r.transition.reflect }

/-- The table with all moves in the other direction. -/
def Table.reflect (t : Table) : Table :=
  ⟨t.entries.map fun e ↦ (e.1, e.2.reflect), by
    rw [Ascending, List.pairwise_map]
    exact t.ascending⟩

/-- The machine with all moves in the other direction. -/
def Machine.reflect (m : Machine) : Machine := { m with table := Table.reflect m.table }

/-- The tape read from right to left. -/
def Tape.reversed (t : Tape) : Tape := ofList t.toList.reverse

/-- The position as far from the one end of the tape as another is from the other end. -/
def Tape.opposite (t : Tape) (position : Int) : Int := t.size - 1 - position

/-- The halt of a run on the reversed tape. -/
def Halt.reflect (t : Tape) : Halt → Halt
  | accepted => accepted
  | rejected => rejected
  | undefined state symbol => undefined state symbol
  | outOfBounds position => outOfBounds (t.opposite position)

/-- The execution on the reversed tape. -/
def Execution.reflect (e : Execution) : Execution where
  state := e.state
  tape := e.tape.reversed
  head := e.tape.opposite e.head
  steps := e.steps
  halt := e.halt.map (Halt.reflect e.tape)

/-- The outcome on the reversed tape. -/
def Outcome.reflect (o : Outcome) : Outcome where
  halt := o.halt.reflect o.tape
  state := o.state
  tape := o.tape.reversed
  head := o.tape.opposite o.head
  steps := o.steps

/-- A move in the other direction is by the opposite distance. -/
theorem Action.MovesBy.reflect {a : Action} {d : Int} (h : a.MovesBy d) :
    a.reflect.MovesBy (-d) := by
  cases h with
  | right => exact .left
  | left => exact .right

/-- To exchange the directions twice changes nothing. -/
theorem Rule.reflect_involutive : Function.Involutive Rule.reflect := by
  rintro ⟨trigger, next, write, action⟩
  cases action <;> rfl

/-- The rules of the reflected table are the reflected rules. -/
theorem Table.rules_reflect (t : Table) :
    rules (reflect t) = (rules t).map Rule.reflect := by
  rw [rules, rules, reflect, List.map_map, List.map_map]
  rfl

/-- The reflected machine makes a transition where the machine makes its reflection. -/
theorem Machine.hasRule_reflect_iff {m : Machine} {q : State} {s : Symbol} {t : Transition} :
    m.reflect.HasRule q s t ↔ m.HasRule q s t.reflect := by
  rw [HasRule, reflect, Table.rules_reflect, List.mem_map_of_involutive Rule.reflect_involutive]
  rfl

/-- A rule of the machine is one of the reflected machine, reflected. -/
theorem Machine.HasRule.reflect {m : Machine} {q : State} {s : Symbol} {t : Transition}
    (h : m.HasRule q s t) : m.reflect.HasRule q s t.reflect := by
  rw [HasRule, Machine.reflect, Table.rules_reflect]
  exact List.mem_map_of_mem (f := Rule.reflect) h

/-! ### The reversed tape -/

namespace Tape

variable {t : Tape}

/-- The cells of the reversed tape. -/
@[simp] theorem toList_reversed : t.reversed.toList = t.toList.reverse := rfl

/-- The reversed tape has as many cells. -/
@[simp] theorem size_reversed : t.reversed.size = t.size := by
  rw [← length_toList, toList_reversed, List.length_reverse, length_toList]

/-- What is opposite depends on the number of cells only. -/
theorem opposite_of_size_eq {t' : Tape} (h : t'.size = t.size) : t'.opposite = t.opposite := by
  funext position
  rw [opposite, opposite, h]

/-- Overwriting changes nothing about what is opposite. -/
@[simp] theorem opposite_overwrite (t : Tape) (i : Nat) (s : Symbol) :
    (t.overwrite i s).opposite = t.opposite :=
  opposite_of_size_eq (t.size_overwrite i s)

/-- A step to the opposite side. -/
theorem opposite_add (t : Tape) (position d : Int) :
    t.opposite (position + d) = t.opposite position + -d := by
  rw [opposite, opposite]
  omega

/-- A position is on the tape exactly if its opposite is. -/
@[simp] theorem covers_reversed {position : Int} :
    t.reversed.Covers (t.opposite position) ↔ t.Covers position := by
  rw [Covers, Covers, size_reversed, opposite]
  omega

/-- A cell of the tape is the opposite cell of the reversed tape. -/
theorem getElem?_reversed {i : Nat} (h : i < t.size) :
    t.reversed.toList[t.size - 1 - i]? = t.toList[i]? := by
  have hl : t.toList.length = t.size := t.length_toList
  rw [toList_reversed, List.getElem?_reverse (by omega), hl]
  congr 1
  omega

/-- Overwriting a cell overwrites the opposite cell of the reversed tape. -/
theorem overwrite_reversed {i : Nat} (h : i < t.size) (s : Symbol) :
    t.reversed.overwrite (t.size - 1 - i) s = (t.overwrite i s).reversed := by
  have hl : t.toList.length = t.size := t.length_toList
  apply ext_toList
  apply List.ext_getElem?
  intro j
  rw [toList_overwrite, toList_reversed, toList_reversed, toList_overwrite]
  by_cases hj : j < t.size
  · rw [List.getElem?_reverse (by rw [List.length_set]; omega), List.length_set,
      List.getElem?_set, List.getElem?_set, List.getElem?_reverse (by omega), List.length_reverse]
    by_cases hij : t.size - 1 - i = j
    · rw [if_pos hij, if_pos (by omega), if_pos (by omega), if_pos (by omega)]
    · rw [if_neg hij, if_neg (by omega)]
  · rw [List.getElem?_eq_none (by rw [List.length_set, List.length_reverse]; omega),
      List.getElem?_eq_none (by rw [List.length_reverse, List.length_set]; omega)]

end Tape

/-- The halt of a run on the reversed tape depends on the number of cells only. -/
theorem Halt.reflect_of_size_eq {t t' : Tape} (h : t'.size = t.size) :
    Halt.reflect t' = Halt.reflect t := by
  funext halt
  cases halt with
  | outOfBounds position => rw [reflect, reflect, Tape.opposite_of_size_eq h]
  | _ => rfl

/-! ### Runs on the reversed tape -/

namespace Execution

variable {e : Execution}

/-- The head reads the same symbol in the opposite cell. -/
theorem Reads.reflect {i : Nat} {s : Symbol} (h : e.Reads i s) :
    e.reflect.Reads (e.tape.size - 1 - i) s := by
  have hi := h.lt_size
  constructor
  · show (e.tape.size : Int) - 1 - e.head = _
    rw [h.head_eq]
    omega
  · show e.tape.reversed.toList[_]? = _
    rw [Tape.getElem?_reversed hi, h.cell_eq]

/-- What the reflection of an execution is after its tape has been written. -/
theorem reflect_written {t : Tape} {i : Nat} (hi : i < t.size) (s : Symbol) (q : State)
    (head : Int) (steps : Nat) (halt : Option Halt) :
    reflect ⟨q, t.overwrite i s, head, steps, halt⟩ =
      ⟨q, t.reversed.overwrite (t.size - 1 - i) s, t.opposite head, steps,
        halt.map (Halt.reflect t)⟩ := by
  rw [reflect, Tape.overwrite_reversed hi, Tape.opposite_overwrite,
    Halt.reflect_of_size_eq (t.size_overwrite i s)]

/-- A run that has not halted has not on the reversed tape. -/
theorem halt_reflect_of_none (h : e.halt = none) : e.reflect.halt = none := by
  rw [reflect, h]
  rfl

/-- A run has halted exactly if it has on the reversed tape. -/
@[simp] theorem isHalted_reflect : e.reflect.isHalted = e.isHalted :=
  Option.isSome_map

/-- The outcome on the reversed tape is that of the run on it. -/
theorem outcome?_reflect : e.reflect.outcome? = e.outcome?.map Outcome.reflect := by
  rw [outcome?, outcome?, reflect, Option.map_map, Option.map_map]
  rfl

end Execution

namespace Machine

variable {m : Machine}

/-- A round on the tape is, reflected, a round on the reversed tape. -/
theorem Round.reflect {e e' : Execution} (h : m.Round e e') :
    m.reflect.Round e.reflect e'.reflect := by
  cases h with
  | @stopped x hh =>
    refine .stopped (h := x.reflect e.tape) ?_
    rw [Execution.reflect, hh]
    rfl
  | outside hn hc =>
    exact .outside (Execution.halt_reflect_of_none hn) (fun hon ↦ hc (Tape.covers_reversed.mp hon))
  | undefined hn hr ht =>
    exact .undefined (Execution.halt_reflect_of_none hn) hr.reflect fun t ht' ↦
      ht _ (hasRule_reflect_iff.mp ht')
  | accepted hn hr ht ha =>
    rw [Execution.reflect_written hr.lt_size]
    apply Round.accepted (Execution.halt_reflect_of_none hn) hr.reflect ht.reflect
    rw [Transition.reflect, ha]
    rfl
  | rejected hn hr ht ha =>
    rw [Execution.reflect_written hr.lt_size]
    apply Round.rejected (Execution.halt_reflect_of_none hn) hr.reflect ht.reflect
    rw [Transition.reflect, ha]
    rfl
  | @moved i s t d hn hr ht hd hc =>
    have hon := Tape.covers_reversed.mpr hc
    rw [Execution.reflect_written hr.lt_size, Tape.opposite_add]
    rw [Tape.opposite_add] at hon
    exact .moved (t := t.reflect) (Execution.halt_reflect_of_none hn) hr.reflect ht.reflect
      hd.reflect hon
  | @left i s t d hn hr ht hd hc =>
    have hoff := mt Tape.covers_reversed.mp hc
    rw [Tape.opposite_add] at hoff
    rw [Execution.reflect_written hr.lt_size, Option.map_some, Halt.reflect, Tape.opposite_add]
    exact .left (t := t.reflect) (Execution.halt_reflect_of_none hn) hr.reflect ht.reflect
      hd.reflect hoff

/-- The steps of the reflected machine are the reflections of the steps of the machine. -/
theorem semiconj_reflect (m : Machine) :
    Function.Semiconj Execution.reflect m.step m.reflect.step :=
  fun e ↦ (m.round_step e).reflect.eq_step

/-- After every number of steps the reflected machine is where the machine is, reflected. -/
theorem iterate_step_reflect (m : Machine) (e : Execution) (k : Nat) :
    m.reflect.step^[k] e.reflect = (m.step^[k] e).reflect :=
  ((semiconj_reflect m).iterate_right k e).symm

/-- A run ends exactly if the reflected run does, and then that ends in the reflection. -/
theorem endsIn_reflect_iff {e last' : Execution} :
    m.reflect.EndsIn e.reflect last' ↔ ∃ last, m.EndsIn e last ∧ last' = last.reflect := by
  constructor
  · rintro ⟨k, rfl, hk⟩
    rw [iterate_step_reflect] at hk ⊢
    exact ⟨_, ⟨k, rfl, by simpa using hk⟩, rfl⟩
  · rintro ⟨_, ⟨k, rfl, hk⟩, rfl⟩
    exact ⟨k, iterate_step_reflect m e k, by simpa using hk⟩

/-- The outcome of the reflected run is the reflection of the outcome. -/
theorem run_reflect (m : Machine) (tape : Tape) (head : Int) :
    m.reflect.run tape.reversed (tape.opposite head) = (m.run tape head).map Outcome.reflect := by
  apply Option.ext
  intro o'
  have hlaunch : m.reflect.launch tape.reversed (tape.opposite head) =
      (m.launch tape head).reflect := rfl
  rw [run_eq_some_iff, hlaunch, Option.map_eq_some_iff]
  constructor
  · rintro ⟨last', hends, ho'⟩
    obtain ⟨last, hlast, rfl⟩ := endsIn_reflect_iff.mp hends
    rw [Execution.outcome?_reflect, Option.map_eq_some_iff] at ho'
    obtain ⟨o, ho, rfl⟩ := ho'
    exact ⟨o, run_eq_some_iff.mpr ⟨last, hlast, ho⟩, rfl⟩
  · rintro ⟨o, ho, rfl⟩
    obtain ⟨last, hlast, ho⟩ := run_eq_some_iff.mp ho
    refine ⟨last.reflect, endsIn_reflect_iff.mpr ⟨last, hlast, rfl⟩, ?_⟩
    rw [Execution.outcome?_reflect, ho]
    rfl

end Machine

/-- A machine, and the one with the moves to the right and to the left exchanged in every rule, on
the reversed tape from the opposite position: after every number of steps both are in the same
state, with the same count of moves, with reversed tapes, with their heads in opposite cells, and
with the same halt but for the position off the tape, which is the opposite one. So the one run ends
exactly if the other does, and its outcome is the reflected one. -/
theorem run_reflected (m : Machine) (tape : Tape) (head : Int) :
    Table.rules m.reflect.table = (Table.rules m.table).map Rule.reflect ∧
    (∀ k, m.reflect.step^[k] (m.reflect.launch tape.reversed (tape.opposite head)) =
      let e := m.step^[k] (m.launch tape head)
      ⟨e.state, e.tape.reversed, tape.opposite e.head, e.steps, e.halt.map (Halt.reflect tape)⟩) ∧
    ((∃ last, m.reflect.EndsIn (m.reflect.launch tape.reversed (tape.opposite head)) last) ↔
      ∃ last, m.EndsIn (m.launch tape head) last) ∧
    m.reflect.run tape.reversed (tape.opposite head) =
      (m.run tape head).map Outcome.reflect := by
  have hlaunch : m.reflect.launch tape.reversed (tape.opposite head) =
      (m.launch tape head).reflect := rfl
  refine ⟨Table.rules_reflect m.table, fun k ↦ ?_, ?_, m.run_reflect tape head⟩
  · have hsize : (m.step^[k] (m.launch tape head)).tape.size = tape.size :=
      (m.onCourse_iterate_step tape head k).size_eq
    rw [hlaunch, Machine.iterate_step_reflect, Execution.reflect, Tape.opposite_of_size_eq hsize,
      Halt.reflect_of_size_eq hsize]
  · rw [hlaunch]
    constructor
    · rintro ⟨last', hends⟩
      obtain ⟨last, hlast, -⟩ := Machine.endsIn_reflect_iff.mp hends
      exact ⟨last, hlast⟩
    · rintro ⟨last, hlast⟩
      exact ⟨last.reflect, Machine.endsIn_reflect_iff.mpr ⟨last, hlast, rfl⟩⟩

end TapeMachine
