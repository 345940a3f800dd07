import TapeMachine.Proofs.Definition.Content
import TapeMachine.Proofs.Execution.Calls
import TapeMachine.Proofs.Finding.Checks

/-!
# Runs of programs without findings

A run of a consistent machine on an input of declared symbols stays within what is declared: its
state is below the number of states, its tape holds declared symbols, and its head is on the tape
(`Machine.Within`). A program without findings, such as a strict program that has been read, has
such runs only (`within_of_findings_eq_nil`).
-/

namespace TapeMachine

namespace Machine

variable {m : Machine}

/-- The state is below the declared number, the tape holds declared symbols and the head is on it.
-/
structure Within (m : Machine) (e : Execution) : Prop where
  state_lt : e.state.index < m.numStates
  declares : m.Declares e.tape
  covers : e.tape.Covers e.head

/-- A tape still holds declared symbols only after a declared symbol has been written. -/
theorem Declares.overwrite {tape : Tape} (h : m.Declares tape) (i : Nat) {w : Symbol}
    (hw : m.alphabet.contains w = true) : m.Declares (tape.overwrite i w) := by
  intro s hs
  rw [Tape.toList_overwrite] at hs
  rcases List.mem_or_eq_of_mem_set hs with hs | rfl
  · exact h s hs
  · exact hw

/-- A round of a consistent machine keeps a run within what is declared. -/
theorem Within.round {e e' : Execution} (h : m.Within e) (hm : m.Consistent) (hr : m.Round e e') :
    m.Within e' := by
  obtain ⟨hq, ht, hc⟩ := h
  cases hr with
  | stopped => exact ⟨hq, ht, hc⟩
  | outside => exact ⟨hq, ht, hc⟩
  | undefined => exact ⟨hq, ht, hc⟩
  | accepted _ _ hrule _ =>
    exact ⟨hq, ht.overwrite _ (hm.write_declared _ _ _ hrule), Tape.covers_overwrite.mpr hc⟩
  | rejected _ _ hrule _ =>
    exact ⟨hq, ht.overwrite _ (hm.write_declared _ _ _ hrule), Tape.covers_overwrite.mpr hc⟩
  | moved _ _ hrule _ hon =>
    exact ⟨hm.next_lt _ _ _ hrule, ht.overwrite _ (hm.write_declared _ _ _ hrule),
      Tape.covers_overwrite.mpr hon⟩
  | left _ _ hrule _ _ =>
    exact ⟨hm.next_lt _ _ _ hrule, ht.overwrite _ (hm.write_declared _ _ _ hrule),
      Tape.covers_overwrite.mpr hc⟩

/-- A run of a consistent machine that begins on a tape of declared symbols stays within what is
declared. -/
theorem Consistent.within (hm : m.Consistent) {tape : Tape} {head : Int} (ht : m.Declares tape)
    (hc : tape.Covers head) (k : Nat) : m.Within (m.step^[k] (m.launch tape head)) :=
  Function.Iterate.rec m.Within ⟨hm.start_lt, ht, hc⟩ (fun e h ↦ h.round hm (m.round_step e)) k

end Machine

/-- A strict program that has been read has no findings. -/
theorem Definition.findings_eq_nil_of_parse {source : String} {p : Program}
    {warnings : List Warning} (h : parse source = .ok (p, warnings)) (hm : p.mode = .strict) :
    p.findings = [] := by
  obtain ⟨sections, -, h⟩ := exists_of_bind_eq_ok h
  obtain ⟨draft, -, h⟩ := exists_of_bind_eq_ok h
  obtain ⟨⟨program, again⟩, -, h⟩ := exists_of_bind_eq_ok h
  obtain ⟨findings, hc, h⟩ := exists_of_bind_eq_ok h
  obtain ⟨rfl, -⟩ : program = p ∧ _ := by simpa using Except.ok.inj h
  exact Program.findings_eq_nil_of_check hm (eq_ok_of_mapError_eq_ok hc)

/-- A program without findings, such as a strict program that has been read, has runs that stay
within its declarations: after every number of steps the state is below the number of states, all
symbols of the tape are declared, and the head is on the tape. So a run that misses a rule misses it
for a state and a symbol that are declared, and a run that leaves its tape has made a move. -/
theorem run_within_declarations {p : Program}
    (h : p.findings = [] ∨
      p.mode = .strict ∧ ∃ source warnings, Definition.parse source = .ok (p, warnings))
    {r : Run} (hr : r ∈ p.runs) (k : Nat) :
    let e := p.machine.step^[k] (p.machine.launch r.tape r.head)
    e.state.index < p.machine.numStates ∧
      (∀ s ∈ e.tape.toList, p.machine.alphabet.contains s = true) ∧ e.tape.Covers e.head ∧
      (∀ state symbol, e.halt = some (.undefined state symbol) →
        state.index < p.machine.numStates ∧ p.machine.alphabet.contains symbol = true) ∧
      (∀ position, e.halt = some (.outOfBounds position) → 0 < e.steps) := by
  intro e
  have hnone : p.findings = [] := by
    rcases h with h | ⟨hm, source, warnings, hp⟩
    · exact h
    · exact Definition.findings_eq_nil_of_parse hp hm
  obtain ⟨hmachine, hruns⟩ := Program.findings_eq_nil_iff.mp hnone
  obtain ⟨hdeclares, hcovers⟩ := hruns r hr
  have hwithin : p.machine.Within e :=
    (Machine.consistent_of_findings_eq_nil hmachine).within hdeclares hcovers k
  have htrail := Execution.trail_iterate_step p.machine r.tape r.head k
  refine ⟨hwithin.state_lt, hwithin.declares, hwithin.covers, ?_, ?_⟩
  · intro state symbol hx
    obtain ⟨rfl, hs⟩ := htrail.undefined state symbol hx
    obtain ⟨i, hread⟩ := Execution.symbol?_eq_some_iff.mp hs
    exact ⟨hwithin.state_lt, hwithin.declares symbol (List.mem_of_getElem? hread.cell_eq)⟩
  · intro position hx
    obtain ⟨hoff, ⟨-, rfl, hhead⟩ | ⟨hsteps, -⟩⟩ := htrail.outOfBounds position hx
    · rw [hhead] at hoff
      exact absurd hcovers hoff
    · exact hsteps

/-- A machine that runs to the right over `a`, with an input of two cells. -/
def runner : Program where
  name := "a"
  mode := .strict
  machine := ((Machine.blank 1 ⟨0⟩).addSymbol ⟨'a', .refl true⟩).define
    ⟨⟨⟨0⟩, ⟨'a', .refl true⟩⟩, ⟨⟨0⟩, ⟨'a', .refl true⟩, .moveRight⟩⟩
  runs := [⟨⟨#[⟨'a', .refl true⟩, ⟨'a', .refl true⟩]⟩, 0⟩]

/-- It can be read from a strict file, and leaves its tape with its second move. -/
theorem run_within_declarations_runner :
    let source := "name: a\nmode: strict\nstates: 1\ntransitions:\n(0,a)->(0,a,R)\nruns:\n\"aa\"@0"
    let r : Run := ⟨⟨#[⟨'a', rfl⟩, ⟨'a', rfl⟩]⟩, 0⟩
    (runner.mode = .strict ∧ Definition.parse source = .ok (runner, [])) ∧ r ∈ runner.runs ∧
      ∃ e, e = runner.machine.step^[2] (runner.machine.launch r.tape r.head) ∧
        e.halt = some (.outOfBounds 2) ∧ e.state.index < runner.machine.numStates ∧
        (∀ s ∈ e.tape.toList, runner.machine.alphabet.contains s = true) ∧
        e.tape.Covers e.head ∧ 0 < e.steps := by
  intro source r
  have hparse : Definition.parse source = .ok (runner, []) := by decide
  have hrun : r ∈ runner.runs := List.mem_cons_self
  obtain ⟨hstate, hsymbols, hhead, -, hmoved⟩ :=
    run_within_declarations (.inr ⟨rfl, source, [], hparse⟩) hrun 2
  exact ⟨⟨rfl, hparse⟩, hrun, _, rfl, by decide, hstate, hsymbols, hhead, hmoved 2 (by decide)⟩

end TapeMachine
