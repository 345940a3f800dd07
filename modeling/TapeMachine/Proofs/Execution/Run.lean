import Mathlib.Algebra.Order.BigOperators.Group.Finset
import Mathlib.Data.Fintype.BigOperators
import TapeMachine.Proofs.Execution.Moves

/-!
# Runs to the end

State, head and tape decide how a run goes on, so a run that comes back to a situation never ends.
A machine has finitely many situations on a tape, and no more than `haltBound` counts; hence a run
that ends makes at most so many moves, and the bounded run that `run` makes is a run to the end
(`run_eq_some_iff`). The end is that of the reference machine (`run_refines_rounds`).
-/

namespace TapeMachine

/-! ### Situations -/

namespace Execution

/-- An execution that has halted has the outcome that shows its halt, state, tape, head and count.
-/
theorem outcome?_eq_some_iff {e : Execution} {o : Outcome} :
    e.outcome? = some o ↔ e = ⟨o.state, o.tape, o.head, o.steps, some o.halt⟩ := by
  obtain ⟨q, t, p, n, x⟩ := e
  obtain ⟨halt, q', t', p', n'⟩ := o
  cases x with
  | none => simp [outcome?]
  | some h =>
    simp only [outcome?, Option.map_some, Option.some.injEq, Outcome.mk.injEq,
      mk.injEq]
    constructor
    · rintro ⟨rfl, rfl, rfl, rfl, rfl⟩
      exact ⟨rfl, rfl, rfl, rfl, rfl⟩
    · rintro ⟨rfl, rfl, rfl, rfl, rfl⟩
      exact ⟨rfl, rfl, rfl, rfl, rfl⟩

/-- An execution that has an outcome has halted. -/
theorem isHalted_of_outcome? {e : Execution} {o : Outcome} (h : e.outcome? = some o) :
    e.isHalted = true := by
  rw [outcome?_eq_some_iff] at h
  rw [h]
  rfl

/-- What decides how a run goes on that has not stopped. -/
def situation (e : Execution) : State × Int × List Symbol := (e.state, e.head, e.tape.toList)

/-- The executions differ in their counts of moves only. -/
structure Alike (e e' : Execution) : Prop where
  situation_eq : e.situation = e'.situation
  halt_eq : e.halt = e'.halt

/-- An execution is another one of the same kind with another count. -/
theorem Alike.eq_with {e e' : Execution} (h : e.Alike e') : e' = { e with steps := e'.steps } := by
  obtain ⟨q, t, p, n, x⟩ := e
  obtain ⟨q', t', p', n', x'⟩ := e'
  have hs := h.situation_eq
  simp only [situation, Prod.mk.injEq] at hs
  obtain ⟨rfl, rfl, ht⟩ := hs
  have hx : x = x' := h.halt_eq
  rw [Tape.ext_toList ht, hx]

/-- An execution with another count is alike. -/
theorem alike_with (e : Execution) (n : Nat) : e.Alike { e with steps := n } := ⟨rfl, rfl⟩

/-- Reading does not look at the count of moves. -/
theorem Reads.with_steps {e : Execution} {i : Nat} {s : Symbol} (h : e.Reads i s) (n : Nat) :
    Reads { e with steps := n } i s :=
  ⟨h.head_eq, h.cell_eq⟩

end Execution

namespace Machine

variable {m : Machine}

/-- A round does not look at the count of moves. -/
theorem Round.exists_with_steps {e e' : Execution} (h : m.Round e e') (n : Nat) :
    ∃ k, m.Round { e with steps := n } { e' with steps := k } := by
  cases h with
  | stopped hh => exact ⟨n, .stopped hh⟩
  | outside hn hc => exact ⟨n, .outside hn hc⟩
  | undefined hn hr ht => exact ⟨n, .undefined hn (hr.with_steps n) ht⟩
  | accepted hn hr ht ha => exact ⟨n, .accepted hn (hr.with_steps n) ht ha⟩
  | rejected hn hr ht ha => exact ⟨n, .rejected hn (hr.with_steps n) ht ha⟩
  | moved hn hr ht hd hc => exact ⟨n + 1, .moved hn (hr.with_steps n) ht hd hc⟩
  | left hn hr ht hd hc => exact ⟨n + 1, .left hn (hr.with_steps n) ht hd hc⟩

/-- Executions that are alike go on alike. -/
theorem alike_step {e e' : Execution} (h : e.Alike e') : (m.step e).Alike (m.step e') := by
  obtain ⟨k, hk⟩ := (round_step m e).exists_with_steps e'.steps
  rw [h.eq_with, ← hk.eq_step]
  exact (m.step e).alike_with k

/-- Executions that are alike stay alike. -/
theorem alike_iterate_step {e e' : Execution} (h : e.Alike e') (k : Nat) :
    (m.step^[k] e).Alike (m.step^[k] e') := by
  induction k with
  | zero => exact h
  | succ k ih =>
    rw [Function.iterate_succ_apply', Function.iterate_succ_apply']
    exact alike_step ih

/-- A run that comes back to a situation never ends. -/
theorem runsForever_of_alike {e : Execution} {p : Nat} (hp : 0 < p)
    (h : e.Alike (m.step^[p] e)) (hgo : ∀ k < p, (m.step^[k] e).isHalted = false) :
    m.RunsForever e := by
  intro k
  induction k using Nat.strongRecOn with
  | ind k ih =>
    by_cases hk : k < p
    · exact hgo k hk
    · have ha := (alike_iterate_step (m := m) h (k - p)).halt_eq
      rw [← Function.iterate_add_apply, Nat.sub_add_cancel (by omega)] at ha
      rw [Execution.isHalted, ← ha]
      exact ih (k - p) (by omega)

/-- A run that ends makes no more moves than there are situations to make them in. -/
theorem MovesExactly.le_card {e : Execution} {n : Nat} {K : Finset (State × Int × List Symbol)}
    (h : m.MovesExactly e n) (hK : ∀ k < n, (m.step^[k] e).situation ∈ K) : n ≤ K.card := by
  by_contra hlt
  have hcard : K.card < (Finset.range n).card := by
    rw [Finset.card_range]
    omega
  obtain ⟨i, hi, j, hj, hne, heq⟩ := Finset.exists_ne_map_eq_of_card_lt_of_maps_to hcard
    (f := fun k ↦ (m.step^[k] e).situation) fun k hk ↦ hK k (Finset.mem_range.mp hk)
  rw [Finset.mem_range] at hi hj
  -- The run comes back from the earlier of two equal situations to itself, so it never rests.
  have no_return {i j : Nat} (hij : i < j) (hj : j < n)
      (heq : (m.step^[i] e).situation = (m.step^[j] e).situation) : False := by
    have halt_none {k : Nat} (hk : k < n) : (m.step^[k] e).halt = none :=
      (movesNext_iff.mp (h.moves k hk)).1
    have ha : (m.step^[i] e).Alike (m.step^[j - i] (m.step^[i] e)) := by
      rw [← Function.iterate_add_apply, Nat.sub_add_cancel hij.le]
      exact ⟨heq, (halt_none (by omega)).trans (halt_none hj).symm⟩
    have hgo (k : Nat) (hk : k < j - i) : (m.step^[k] (m.step^[i] e)).isHalted = false := by
      rw [← Function.iterate_add_apply, Execution.isHalted, halt_none (by omega)]
      rfl
    have hf := (runsForever_of_alike (by omega) ha hgo).movesNext (n - i)
    rw [← Function.iterate_add_apply, Nat.sub_add_cancel (by omega), h.rests] at hf
    cases hf
  rcases Nat.lt_or_gt_of_ne hne with hij | hij
  · exact no_return hij hj heq
  · exact no_return hij hi heq.symm

end Machine

/-! ### Counting situations -/

/-- The tape contents with a symbol of the given set in each cell. -/
def contentsOver {n : Nat} (cells : Fin n → Finset Symbol) : Finset (List Symbol) :=
  (Fintype.piFinset cells).image List.ofFn

/-- A content with a symbol of the given set in each cell is among them. -/
theorem mem_contentsOver {n : Nat} {cells : Fin n → Finset Symbol} {l : List Symbol}
    (hl : l.length = n) (h : ∀ (i : Fin n) (s : Symbol), l[i.val]? = some s → s ∈ cells i) :
    l ∈ contentsOver cells := by
  subst hl
  rw [contentsOver, Finset.mem_image]
  refine ⟨l.get, ?_, List.ofFn_get l⟩
  rw [Fintype.mem_piFinset]
  exact fun i ↦ h i _ (List.getElem?_eq_getElem i.isLt)

/-- There are at most as many contents as there are ways to choose a symbol for each cell. -/
theorem card_contentsOver_le {n b : Nat} {cells : Fin n → Finset Symbol}
    (h : ∀ i, (cells i).card ≤ b) : (contentsOver cells).card ≤ b ^ n :=
  calc (contentsOver cells).card
      ≤ (Fintype.piFinset cells).card := Finset.card_image_le
    _ = ∏ i, (cells i).card := Fintype.card_piFinset cells
    _ ≤ b ^ (Finset.univ : Finset (Fin n)).card := Finset.prod_le_pow_card _ _ _ fun i _ ↦ h i
    _ = b ^ n := by rw [Finset.card_univ, Fintype.card_fin]

/-- The head positions on a tape of `n` cells. -/
def positionsBelow (n : Nat) : Finset Int := (Finset.range n).image Int.ofNat

/-- A position that a tape covers is among them. -/
theorem mem_positionsBelow {t : Tape} {position : Int} (h : t.Covers position) :
    position ∈ positionsBelow t.size := by
  obtain ⟨h0, hlt⟩ := h
  rw [positionsBelow, Finset.mem_image]
  refine ⟨position.toNat, ?_, ?_⟩
  · rw [Finset.mem_range]
    omega
  · rw [Int.ofNat_eq_natCast]
    omega

/-- There are as many positions as cells. -/
theorem card_positionsBelow_le (n : Nat) : (positionsBelow n).card ≤ n :=
  Finset.card_image_le.trans_eq (Finset.card_range n)

namespace Machine

variable {m : Machine}

/-- The states that a run can be in: the start state, and those that rules lead to. -/
def runStates (m : Machine) : Finset State :=
  insert m.start (m.table.rules.map fun r ↦ r.transition.next).toFinset

/-- The symbols that rules write. -/
def writtenSymbols (m : Machine) : Finset Symbol :=
  (m.table.rules.map fun r ↦ r.transition.write).toFinset

/-- What holds all along a run on a tape: it is in a state that a run can be in, the tape keeps its
length, and each cell holds its first symbol or a written one. -/
structure OnCourse (m : Machine) (tape : Tape) (e : Execution) : Prop where
  state_mem : e.state ∈ m.runStates
  size_eq : e.tape.size = tape.size
  cell_mem : ∀ (i : Nat) (s : Symbol), e.tape.toList[i]? = some s →
    tape.toList[i]? = some s ∨ s ∈ m.writtenSymbols

/-- Before the first step a run is on its course. -/
theorem onCourse_launch (m : Machine) (tape : Tape) (head : Int) :
    m.OnCourse tape (m.launch tape head) :=
  ⟨Finset.mem_insert_self _ _, rfl, fun _ _ h ↦ .inl h⟩

theorem next_mem_runStates {q : State} {s : Symbol} {t : Transition} (h : m.HasRule q s t) :
    t.next ∈ m.runStates :=
  Finset.mem_insert_of_mem (List.mem_toFinset.mpr (List.mem_map.mpr ⟨_, h, rfl⟩))

theorem write_mem_writtenSymbols {q : State} {s : Symbol} {t : Transition}
    (h : m.HasRule q s t) : t.write ∈ m.writtenSymbols :=
  List.mem_toFinset.mpr (List.mem_map.mpr ⟨_, h, rfl⟩)

private theorem cell_mem_overwrite {tape t : Tape} {i : Nat} {w : Symbol}
    (hw : w ∈ m.writtenSymbols) (h : ∀ (j : Nat) (s : Symbol), t.toList[j]? = some s →
      tape.toList[j]? = some s ∨ s ∈ m.writtenSymbols) (j : Nat) (s : Symbol)
    (hj : (t.overwrite i w).toList[j]? = some s) :
    tape.toList[j]? = some s ∨ s ∈ m.writtenSymbols := by
  rw [Tape.toList_overwrite, List.getElem?_set] at hj
  split at hj
  · split at hj
    · cases hj
      exact .inr hw
    · cases hj
  · exact h j s hj

/-- A round keeps a run on its course. -/
theorem OnCourse.round {tape : Tape} {e e' : Execution} (h : m.OnCourse tape e)
    (hr : m.Round e e') : m.OnCourse tape e' := by
  obtain ⟨hq, hs, hc⟩ := h
  cases hr with
  | stopped => exact ⟨hq, hs, hc⟩
  | outside => exact ⟨hq, hs, hc⟩
  | undefined => exact ⟨hq, hs, hc⟩
  | accepted _ _ ht _ =>
    exact ⟨hq, by simpa using hs, cell_mem_overwrite (write_mem_writtenSymbols ht) hc⟩
  | rejected _ _ ht _ =>
    exact ⟨hq, by simpa using hs, cell_mem_overwrite (write_mem_writtenSymbols ht) hc⟩
  | moved _ _ ht _ _ =>
    exact ⟨next_mem_runStates ht, by simpa using hs,
      cell_mem_overwrite (write_mem_writtenSymbols ht) hc⟩
  | left _ _ ht _ _ =>
    exact ⟨next_mem_runStates ht, by simpa using hs,
      cell_mem_overwrite (write_mem_writtenSymbols ht) hc⟩

/-- A run is on its course after every number of steps. -/
theorem onCourse_iterate_step (m : Machine) (tape : Tape) (head : Int) (k : Nat) :
    m.OnCourse tape (m.step^[k] (m.launch tape head)) := by
  induction k with
  | zero => exact onCourse_launch m tape head
  | succ k ih =>
    rw [Function.iterate_succ_apply']
    exact ih.round (round_step m _)

/-- The situations in which a run on a tape can move. -/
def situationsOn (m : Machine) (tape : Tape) : Finset (State × Int × List Symbol) :=
  m.runStates ×ˢ positionsBelow tape.size ×ˢ
    contentsOver fun i : Fin tape.size ↦ insert (tape.get i) m.writtenSymbols

/-- A run on a tape moves in these situations only. -/
theorem OnCourse.situation_mem {tape : Tape} {e : Execution} (h : m.OnCourse tape e)
    (hm : m.movesNext e = true) : e.situation ∈ m.situationsOn tape := by
  obtain ⟨-, i, s, t, d, hr, -⟩ := movesNext_iff.mp hm
  have hp := mem_positionsBelow hr.covers
  rw [h.size_eq] at hp
  refine Finset.mem_product.mpr ⟨h.state_mem, Finset.mem_product.mpr ⟨hp, ?_⟩⟩
  have hl : e.tape.toList.length = tape.size := by rw [Tape.length_toList, h.size_eq]
  apply mem_contentsOver hl
  intro i s hs
  rcases h.cell_mem i s hs with hi | hw
  · rw [Tape.toList_getElem?] at hi
    exact Finset.mem_insert.mpr (.inl (Option.some.inj hi).symm)
  · exact Finset.mem_insert_of_mem hw

private theorem card_insert_rules_le {α : Type} [DecidableEq α] (m : Machine) (a : α)
    (f : Rule → α) : (insert a (m.table.rules.map f).toFinset).card ≤ m.table.size + 1 :=
  calc (insert a (m.table.rules.map f).toFinset).card
      ≤ (m.table.rules.map f).toFinset.card + 1 := Finset.card_insert_le _ _
    _ ≤ (m.table.rules.map f).length + 1 := Nat.add_le_add_right (List.toFinset_card_le _) 1
    _ = m.table.size + 1 := by simp [Table.rules, SortedMap.size]

/-- There is at most one state more that a run can be in than there are rules. -/
theorem card_runStates_le (m : Machine) : m.runStates.card ≤ m.table.size + 1 :=
  card_insert_rules_le m _ _

/-- There are at most `haltBound` situations in which a run on a tape can move. -/
theorem card_situationsOn_le (m : Machine) (tape : Tape) :
    (m.situationsOn tape).card ≤ m.haltBound tape := by
  rw [situationsOn, Finset.card_product, Finset.card_product, haltBound, Nat.mul_assoc]
  exact Nat.mul_le_mul (card_runStates_le m) <|
    Nat.mul_le_mul (card_positionsBelow_le _) <|
      card_contentsOver_le fun i ↦ card_insert_rules_le m _ _

/-- A run on a tape that ends makes at most `haltBound` moves. -/
theorem MovesExactly.le_haltBound {tape : Tape} {head : Int} {n : Nat}
    (h : m.MovesExactly (m.launch tape head) n) : n ≤ m.haltBound tape :=
  (h.le_card fun k hk ↦ (onCourse_iterate_step m tape head k).situation_mem (h.moves k hk)).trans
    (card_situationsOn_le m tape)

/-! ### The outcome of a run -/

/-- A run returns an outcome exactly if it ends with that outcome. -/
theorem run_eq_some_iff {tape : Tape} {head : Int} {o : Outcome} :
    m.run tape head = some o ↔
      ∃ last, m.EndsIn (m.launch tape head) last ∧ last.outcome? = some o := by
  rcases exists_movesExactly_or_runsForever m (m.launch tape head) with ⟨n, hn⟩ | hf
  · rw [run, runFor_of_movesExactly hn hn.le_haltBound]
    simp only [hn.endsIn_iff, exists_eq_left]
  · rw [run, runFor_of_moves fun k _ ↦ hf.movesNext k]
    constructor
    · intro ho
      have hh := Execution.isHalted_of_outcome? ho
      rw [hf] at hh
      cases hh
    · rintro ⟨last, ⟨k, rfl, hk⟩, -⟩
      rw [hf k] at hk
      cases hk

/-- On every tape and from every head position, the steps of the engine are the rounds of the
reference machine, a halt stays as it is, and a run returns an outcome exactly if the reference
machine halts, namely in the state, on the tape, at the head and with the count of moves that the
outcome shows. -/
theorem run_refines_rounds (m : Machine) (tape : Tape) (head : Int) :
    (∀ k e, m.Rounds k ⟨m.start, tape, head, 0, none⟩ e ↔
      e = m.step^[k] (m.launch tape head)) ∧
    (∀ k j, (m.step^[k] (m.launch tape head)).isHalted = true →
      m.step^[k + j] (m.launch tape head) = m.step^[k] (m.launch tape head)) ∧
    (∀ o, m.run tape head = some o ↔ ∃ k, m.Rounds k ⟨m.start, tape, head, 0, none⟩
      ⟨o.state, o.tape, o.head, o.steps, some o.halt⟩) := by
  refine ⟨fun k e ↦ rounds_iff_iterate_step, fun k j h ↦ iterate_step_add_of_isHalted h j,
    fun o ↦ ?_⟩
  rw [run_eq_some_iff]
  constructor
  · rintro ⟨last, ⟨k, hk, -⟩, ho⟩
    have hlast := Execution.outcome?_eq_some_iff.mp ho
    exact ⟨k, rounds_iff_iterate_step.mpr (hlast.symm.trans hk.symm)⟩
  · rintro ⟨k, hk⟩
    have hlast := rounds_iff_iterate_step.mp hk
    exact ⟨_, ⟨k, hlast.symm, rfl⟩, Execution.outcome?_eq_some_iff.mpr rfl⟩

/-- A machine that goes to and fro between two cells that hold `a`. -/
def shuttle : Machine :=
  ((blank 2 ⟨0⟩).define ⟨⟨⟨0⟩, ⟨'a', rfl⟩⟩, ⟨⟨1⟩, ⟨'a', rfl⟩, .moveRight⟩⟩).define
    ⟨⟨⟨1⟩, ⟨'a', rfl⟩⟩, ⟨⟨0⟩, ⟨'a', rfl⟩, .moveLeft⟩⟩

/-- On `a#` the shuttle halts in its second round, and stays as it is. -/
theorem run_refines_rounds_shuttle :
    let tape : Tape := ⟨#[⟨'a', rfl⟩, ⟨'#', rfl⟩]⟩
    let o : Outcome := ⟨.undefined ⟨1⟩ ⟨'#', rfl⟩, ⟨1⟩, tape, 1, 1⟩
    ((shuttle.step^[2] (shuttle.launch tape 0)).isHalted = true ∧
      shuttle.step^[2 + 5] (shuttle.launch tape 0) = shuttle.step^[2] (shuttle.launch tape 0)) ∧
    (shuttle.run tape 0 = some o ∧ ∃ k, shuttle.Rounds k ⟨shuttle.start, tape, 0, 0, none⟩
      ⟨o.state, o.tape, o.head, o.steps, some o.halt⟩) := by
  intro tape o
  obtain ⟨-, hstays, houtcome⟩ := run_refines_rounds shuttle tape 0
  have hhalted : (shuttle.step^[2] (shuttle.launch tape 0)).isHalted = true := by decide
  have hrun : shuttle.run tape 0 = some o := by decide
  exact ⟨⟨hhalted, hstays 2 5 hhalted⟩, hrun, (houtcome o).mp hrun⟩

end Machine

end TapeMachine
