import TapeMachine.Proofs.Execution.Chunks
import TapeMachine.Proofs.Execution.Run

/-!
# The rules that a run consults

A step looks up one state and one symbol, those under the head of a run that has not stopped, and so
does the look-ahead to it. Machines whose tables agree on what a run looks up therefore run alike
(`runs_alike_of_agreesFor`), whatever else their tables hold and whatever they declare as their
states and their alphabet.
-/

namespace TapeMachine

/-- The next step of the execution looks up a rule for this state and this symbol. -/
structure Execution.LooksUp (e : Execution) (q : State) (s : Symbol) : Prop where
  going : e.halt = none
  state_eq : e.state = q
  symbol_eq : e.symbol? = some s

namespace Machine

/-- The tables of the machines agree on what the next step looks up. -/
def AgreesAt (m m' : Machine) (e : Execution) : Prop :=
  ∀ q s, e.LooksUp q s → m'.table.lookup q s = m.table.lookup q s

/-- The tables of the machines agree on what the next `k` steps of the first one look up. -/
def AgreesFor (m m' : Machine) (e : Execution) (k : Nat) : Prop :=
  ∀ j < k, m.AgreesAt m' (m.step^[j] e)

/-- The machines run alike from a tape and a head: the executions, what their look-ahead says and
what any budget and a run to the end make of them are the same. -/
structure RunsLike (m m' : Machine) (tape : Tape) (head : Int) : Prop where
  step : ∀ k, m'.step^[k] (m'.launch tape head) = m.step^[k] (m.launch tape head)
  movesNext : ∀ k, m'.movesNext (m'.step^[k] (m'.launch tape head)) =
    m.movesNext (m.step^[k] (m.launch tape head))
  runBounded : ∀ k budget, m'.runBounded budget (m'.step^[k] (m'.launch tape head)) =
    m.runBounded budget (m.step^[k] (m.launch tape head))
  run : m'.run tape head = m.run tape head

variable {m m' : Machine}

/-! ### One step -/

/-- A head that reads has its symbol looked up, unless the run has stopped. -/
theorem AgreesAt.hasRule_iff {e : Execution} (h : m.AgreesAt m' e) (hn : e.halt = none) {i : Nat}
    {s : Symbol} (hr : e.Reads i s) {t : Transition} :
    m'.HasRule e.state s t ↔ m.HasRule e.state s t := by
  have hlooks : e.LooksUp e.state s := ⟨hn, rfl, Execution.symbol?_eq_some_iff.mpr ⟨i, hr⟩⟩
  rw [Machine.hasRule_iff, Machine.hasRule_iff, h _ _ hlooks]

/-- Machines agree on what is looked up if they have the same for the symbol under the head. -/
theorem AgreesAt.of_symbol? {e : Execution} {s : Symbol} (hs : e.symbol? = some s)
    (h : m'.table.lookup e.state s = m.table.lookup e.state s) : m.AgreesAt m' e := by
  rintro q s' ⟨-, rfl, hs'⟩
  obtain rfl : s = s' := Option.some.inj (hs.symm.trans hs')
  exact h

/-- A round of a machine is one of every machine that agrees on what it looks up. -/
theorem Round.of_agreesAt {e e' : Execution} (hround : m.Round e e') (h : m.AgreesAt m' e) :
    m'.Round e e' := by
  cases hround with
  | stopped hh => exact .stopped hh
  | outside hn hc => exact .outside hn hc
  | undefined hn hr ht =>
    exact .undefined hn hr fun t ht' ↦ ht t ((h.hasRule_iff hn hr).mp ht')
  | accepted hn hr ht ha => exact .accepted hn hr ((h.hasRule_iff hn hr).mpr ht) ha
  | rejected hn hr ht ha => exact .rejected hn hr ((h.hasRule_iff hn hr).mpr ht) ha
  | moved hn hr ht hd hc => exact .moved hn hr ((h.hasRule_iff hn hr).mpr ht) hd hc
  | left hn hr ht hd hc => exact .left hn hr ((h.hasRule_iff hn hr).mpr ht) hd hc

/-- Machines that agree on what a step looks up take the same step. -/
theorem AgreesAt.step_eq {e : Execution} (h : m.AgreesAt m' e) : m'.step e = m.step e :=
  ((m.round_step e).of_agreesAt h).eq_step.symm

/-- Machines that agree on what a step looks up say the same about it beforehand. -/
theorem AgreesAt.movesNext_eq {e : Execution} (h : m.AgreesAt m' e) :
    m'.movesNext e = m.movesNext e := by
  rw [Bool.eq_iff_iff, movesNext_iff, movesNext_iff]
  refine and_congr_right fun hn ↦ ?_
  constructor
  · rintro ⟨i, s, t, d, hr, ht, hd⟩
    exact ⟨i, s, t, d, hr, (h.hasRule_iff hn hr).mp ht, hd⟩
  · rintro ⟨i, s, t, d, hr, ht, hd⟩
    exact ⟨i, s, t, d, hr, (h.hasRule_iff hn hr).mpr ht, hd⟩

/-! ### Many steps -/

namespace AgreesFor

variable {e : Execution} {k : Nat}

/-- Agreement for some steps is agreement for fewer. -/
theorem mono (h : m.AgreesFor m' e k) {j : Nat} (hj : j ≤ k) : m.AgreesFor m' e j :=
  fun i hi ↦ h i (hi.trans_le hj)

/-- Agreement goes on with the run. -/
theorem iterate {j : Nat} (h : m.AgreesFor m' e (k + j)) : m.AgreesFor m' (m.step^[j] e) k := by
  intro i hi
  rw [← Function.iterate_add_apply]
  exact h (i + j) (by omega)

/-- Machines take the same steps as long as they agree on what is looked up. -/
theorem iterate_step_eq (h : m.AgreesFor m' e k) : m'.step^[k] e = m.step^[k] e := by
  induction k with
  | zero => rfl
  | succ k ih =>
    have hlast : m.AgreesAt m' (m.step^[k] e) := h k (Nat.lt_succ_self k)
    rw [Function.iterate_succ_apply', Function.iterate_succ_apply', ih (h.mono (Nat.le_succ k)),
      hlast.step_eq]

/-- A run for some moves looks up no more than one step beyond them. -/
theorem runFor_eq {moves : Nat} (h : m.AgreesFor m' e (moves + 1)) :
    m'.runFor moves e = m.runFor moves e := by
  have hnext : m.AgreesAt m' e := h 0 (Nat.succ_pos moves)
  induction moves generalizing e with
  | zero => simp only [runFor_zero, hnext.movesNext_eq, hnext.step_eq]
  | succ moves ih =>
    have hrest : m.AgreesFor m' (m.step e) (moves + 1) := AgreesFor.iterate (j := 1) h
    simp only [runFor_succ, hnext.step_eq, ih hrest (hrest 0 (Nat.succ_pos moves))]

/-- A run under a budget looks up no more than one step beyond its budget. -/
theorem runBounded_eq {budget : Nat} (h : m.AgreesFor m' e (budget + 1)) :
    m'.runBounded budget e = m.runBounded budget e :=
  runFor_eq (h.mono (by omega))

/-- A run that has halted looks up nothing more. -/
theorem of_isHalted (h : m.AgreesFor m' e k) (hh : (m.step^[k] e).isHalted = true) (n : Nat) :
    m.AgreesFor m' e n := by
  intro j _ q s hlooks
  rcases Nat.lt_or_ge j k with hj | hj
  · exact h j hj q s hlooks
  · -- From its halt on the execution is the one that halted, which has nothing to look up.
    rw [← Nat.add_sub_of_le hj, iterate_step_add_of_isHalted hh] at hlooks
    rw [Execution.isHalted, hlooks.going] at hh
    cases hh

/-- Machines that agree on everything that a run looks up run alike. -/
theorem runsLike {tape : Tape} {head : Int} (hstart : m'.start = m.start)
    (h : ∀ k, m.AgreesFor m' (m.launch tape head) k) : m.RunsLike m' tape head := by
  have hlaunch : m'.launch tape head = m.launch tape head := by rw [launch, launch, hstart]
  have hstep (k : Nat) : m'.step^[k] (m.launch tape head) = m.step^[k] (m.launch tape head) :=
    (h k).iterate_step_eq
  have hends (last : Execution) :
      m'.EndsIn (m'.launch tape head) last ↔ m.EndsIn (m.launch tape head) last := by
    simp only [EndsIn, hlaunch, hstep]
  refine ⟨fun k ↦ by rw [hlaunch, hstep], fun k ↦ ?_, fun k budget ↦ ?_, ?_⟩
  · rw [hlaunch, hstep]
    exact (h (k + 1) k (Nat.lt_succ_self k)).movesNext_eq
  · rw [hlaunch, hstep]
    exact ((h (budget + 1 + k)).iterate).runBounded_eq
  · apply Option.ext
    intro o
    simp only [run_eq_some_iff, hends]

end AgreesFor

/-- Only the rules that a run consults decide it. Machines with one start state whose tables agree
on what the first one looks up within `k` steps go through the same executions in these steps; the
look-ahead says the same before each of them, and so does every run under a budget that does not
look beyond them. If the run is over by then, the machines run alike for good. Hence a symbol that
is declared changes no run, and neither does a rule, new or in the place of another, for a pair that
the run never looks up. -/
theorem runs_alike_of_agreesFor (m : Machine) (tape : Tape) (head : Int) :
    (∀ m' k, m'.start = m.start → m.AgreesFor m' (m.launch tape head) k →
      (∀ j ≤ k, m'.step^[j] (m'.launch tape head) = m.step^[j] (m.launch tape head)) ∧
      (∀ j < k, m'.movesNext (m'.step^[j] (m'.launch tape head)) =
        m.movesNext (m.step^[j] (m.launch tape head))) ∧
      (∀ j budget, j + budget < k →
        m'.runBounded budget (m'.step^[j] (m'.launch tape head)) =
          m.runBounded budget (m.step^[j] (m.launch tape head))) ∧
      ((m.step^[k] (m.launch tape head)).isHalted = true → m.RunsLike m' tape head)) ∧
    (∀ s, m.RunsLike (m.addSymbol s) tape head) ∧
    ∀ r : Rule,
      (∀ k, ¬(m.step^[k] (m.launch tape head)).LooksUp r.trigger.state r.trigger.symbol) →
      m.RunsLike (m.define r) tape head := by
  refine ⟨fun m' k hstart h ↦ ?_, fun s ↦ ?_, fun r hr ↦ ?_⟩
  · have hlaunch : m'.launch tape head = m.launch tape head := by rw [launch, launch, hstart]
    have hstep (j : Nat) (hj : j ≤ k) :
        m'.step^[j] (m'.launch tape head) = m.step^[j] (m.launch tape head) := by
      rw [hlaunch]
      exact (h.mono hj).iterate_step_eq
    refine ⟨hstep, fun j hj ↦ ?_, fun j budget hj ↦ ?_, fun hh ↦ ?_⟩
    · rw [hstep j hj.le]
      exact (h j hj).movesNext_eq
    · rw [hstep j (by omega)]
      have hrest : m.AgreesFor m' (m.launch tape head) (budget + 1 + j) := h.mono (by omega)
      exact hrest.iterate.runBounded_eq
    · exact AgreesFor.runsLike hstart (h.of_isHalted hh)
  · exact AgreesFor.runsLike rfl fun _ _ _ _ _ _ ↦ rfl
  · refine AgreesFor.runsLike rfl fun _ j _ q s hlooks ↦ m.table.lookup_define_of_ne ?_
    intro htrigger
    apply hr j
    rwa [htrigger]

/-- On `a#` the shuttle never looks up what it does in its second state on `a`, so another rule for
that, another symbol and another number of states change nothing. On `aa` it does so with its second
step: a budget of no moves, whose look-ahead goes as far as the first step, ends alike, and a budget
of one move does not. -/
theorem runs_alike_of_agreesFor_shuttle :
    let short : Tape := ⟨#[⟨'a', .refl true⟩, ⟨'#', .refl true⟩]⟩
    let long : Tape := ⟨#[⟨'a', .refl true⟩, ⟨'a', .refl true⟩]⟩
    let r : Rule := ⟨⟨⟨1⟩, ⟨'a', .refl true⟩⟩, ⟨⟨5⟩, ⟨'b', .refl true⟩, .accept⟩⟩
    let other : Machine := { (shuttle.define r).addSymbol ⟨'c', .refl true⟩ with numStates := 9 }
    (shuttle.AgreesFor other (shuttle.launch short 0) 2 ∧
      (shuttle.step^[2] (shuttle.launch short 0)).isHalted = true ∧
      shuttle.RunsLike other short 0) ∧
    ((∀ k, ¬(shuttle.step^[k] (shuttle.launch short 0)).LooksUp r.trigger.state r.trigger.symbol) ∧
      shuttle.RunsLike (shuttle.define r) short 0) ∧
    (shuttle.AgreesFor other (shuttle.launch long 0) 1 ∧
      other.runBounded 0 (other.launch long 0) = shuttle.runBounded 0 (shuttle.launch long 0) ∧
      other.runBounded 1 (other.launch long 0) ≠ shuttle.runBounded 1 (shuttle.launch long 0)) := by
  intro short long r other
  have hfirst (tape : Tape) (hs : (shuttle.launch tape 0).symbol? = some ⟨'a', .refl true⟩) :
      shuttle.AgreesAt other (shuttle.launch tape 0) :=
    .of_symbol? hs (by decide : other.table.lookup ⟨0⟩ _ = shuttle.table.lookup ⟨0⟩ _)
  have hsecond : shuttle.AgreesAt other (shuttle.step^[1] (shuttle.launch short 0)) :=
    .of_symbol? (s := ⟨'#', .refl true⟩) (by decide) (by decide)
  have hshort : shuttle.AgreesFor other (shuttle.launch short 0) 2 := by
    intro j hj
    match j, hj with
    | 0, _ => exact hfirst short (by decide)
    | 1, _ => exact hsecond
  have hlong : shuttle.AgreesFor other (shuttle.launch long 0) 1 := by
    intro j hj
    match j, hj with
    | 0, _ => exact hfirst long (by decide)
  have hhalted : (shuttle.step^[2] (shuttle.launch short 0)).isHalted = true := by decide
  have hnever (k : Nat) : ¬(shuttle.step^[k] (shuttle.launch short 0)).LooksUp r.trigger.state
      r.trigger.symbol := by
    rintro ⟨hgoing, hstate, hsymbol⟩
    rcases Nat.lt_or_ge k 2 with hk | hk
    · have hearly : ∀ j < 2, ¬((shuttle.step^[j] (shuttle.launch short 0)).state = ⟨1⟩ ∧
          (shuttle.step^[j] (shuttle.launch short 0)).symbol? = some ⟨'a', .refl true⟩) := by
        decide
      exact hearly k hk ⟨hstate, hsymbol⟩
    · rw [← Nat.add_sub_of_le hk, iterate_step_add_of_isHalted hhalted] at hgoing
      exact absurd hgoing (by decide)
  obtain ⟨hmachines, -, hdefine⟩ := runs_alike_of_agreesFor shuttle short 0
  obtain ⟨-, -, hbudget, -⟩ := (runs_alike_of_agreesFor shuttle long 0).1 other 1 rfl hlong
  exact ⟨⟨hshort, hhalted, (hmachines other 2 rfl hshort).2.2.2 hhalted⟩,
    ⟨hnever, hdefine r hnever⟩, hlong, hbudget 0 0 (by decide), by decide⟩

end Machine

end TapeMachine
