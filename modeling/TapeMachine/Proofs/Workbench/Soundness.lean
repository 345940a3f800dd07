import TapeMachine.Proofs.Catalogue.Entries
import TapeMachine.Proofs.Finding.Declared
import TapeMachine.Proofs.Workbench.Session

/-!
# Soundness of sessions

What a session shows belongs together at all times (`Sound`): the definition is that of the program,
the program is the one of its number in the catalogue or the one that the session began with, and
the run is one of the program's inputs, some steps on and within the limit. A session begins sound,
and every input either takes the run on, or begins a run, or shows another program; each of the
three keeps it sound.
-/

namespace TapeMachine

/-- The program has this input under this number. A program without inputs has an empty tape under
the number zero. -/
def Program.HasInput (p : Program) (index : Nat) (r : Run) : Prop :=
  (∃ h : index < p.runs.length, p.runs[index] = r) ∨
    p.runs = [] ∧ index = 0 ∧ r = ⟨Tape.empty, 0⟩

/-- An input is launched with its tape and its head. -/
theorem Program.HasInput.launch_eq {p : Program} {index : Nat} {r : Run}
    (h : p.HasInput index r) : p.launch index = p.machine.launch r.tape r.head := by
  rcases h with ⟨hlt, rfl⟩ | ⟨hnil, rfl, rfl⟩
  · rw [launch, List.getElem?_eq_getElem hlt]
  · rw [launch, hnil]
    rfl

/-- An input begins without a move. -/
theorem Program.steps_launch (p : Program) (index : Nat) : (p.launch index).steps = 0 := by
  rw [launch]
  split <;> rfl

/-- Every program has an input under the number zero. -/
theorem Program.exists_hasInput_zero (p : Program) : ∃ r, p.HasInput 0 r := by
  by_cases h : p.runs = []
  · exact ⟨_, .inr ⟨h, rfl, rfl⟩⟩
  · exact ⟨_, .inl ⟨List.length_pos_iff.mpr h, rfl⟩⟩

namespace Workbench

/-- What holds of a session at all times, `first` being the session as it began. -/
structure Sound (maxSteps : Nat) (first w : Workbench) : Prop where
  /-- The definition that is shown is that of the program. -/
  parses : ∃ warnings, Definition.parse w.source = .ok (w.program, warnings)
  isCustom_eq : w.isCustom = first.isCustom
  maxSteps_eq : w.maxSteps = maxSteps
  /-- A session on a definition of its own stays with it. -/
  stays : first.isCustom = true → w.program = first.program ∧ w.source = first.source
  /-- A session on the catalogue shows the entry of its number. -/
  entry : first.isCustom = false → ∃ h : w.programIndex < Catalogue.entries.length,
    Catalogue.entries[w.programIndex] = ⟨w.source, w.program⟩
  /-- The run is that of an input, some steps on. -/
  run : ∃ r k, w.program.HasInput w.runIndex r ∧
    w.execution = w.program.machine.step^[k] (w.program.machine.launch r.tape r.head)
  within : maxSteps ≠ 0 → w.execution.steps ≤ maxSteps

section

variable {maxSteps : Nat} {first w w' : Workbench}

/-! ### What keeps a session sound -/

/-- The run may be taken on within the limit. -/
theorem Sound.of_onSameRun (h : Sound maxSteps first w) (same : w.OnSameRun w')
    (hx : ∃ k, w'.execution = w.program.machine.step^[k] w.execution)
    (hl : maxSteps ≠ 0 → w'.execution.steps ≤ maxSteps) : Sound maxSteps first w' where
  parses := by
    rw [same.source_eq, same.program_eq]
    exact h.parses
  isCustom_eq := same.isCustom_eq.trans h.isCustom_eq
  maxSteps_eq := same.maxSteps_eq.trans h.maxSteps_eq
  stays := by
    rw [same.source_eq, same.program_eq]
    exact h.stays
  entry := by
    simp only [same.source_eq, same.program_eq, same.programIndex_eq]
    exact h.entry
  run := by
    obtain ⟨r, k, hr, hk⟩ := h.run
    obtain ⟨j, hj⟩ := hx
    refine ⟨r, j + k, ?_, ?_⟩
    · rw [same.program_eq, same.runIndex_eq]
      exact hr
    · rw [hj, hk, same.program_eq, Function.iterate_add_apply]
  within := hl

/-- What is said and shown may change while the run stands still. -/
theorem Sound.of_execution_eq (h : Sound maxSteps first w) (same : w.OnSameRun w')
    (hx : w'.execution = w.execution) : Sound maxSteps first w' := by
  apply h.of_onSameRun same ⟨0, hx⟩
  rw [hx]
  exact h.within

/-- An input of the program may begin. -/
theorem Sound.launch (h : Sound maxSteps first w) {index : Nat} {r : Run}
    (hr : w.program.HasInput index r) (message : String) (autoPlay : Bool) :
    Sound maxSteps first { w with
      runIndex := index, execution := w.program.launch index, autoPlay, message } where
  parses := h.parses
  isCustom_eq := h.isCustom_eq
  maxSteps_eq := h.maxSteps_eq
  stays := h.stays
  entry := h.entry
  run := ⟨r, 0, hr, hr.launch_eq⟩
  within := by
    intro _
    rw [Program.steps_launch]
    exact Nat.zero_le _

/-- A session on the catalogue may show another entry. -/
theorem Sound.showLoaded (h : Sound maxSteps first w) (hcatalogue : first.isCustom = false)
    {index : Nat} {e : Catalogue.Entry} (he : Catalogue.entries[index]? = some e) :
    Sound maxSteps first (w.showLoaded index (.ok (e.program, e.source))) := by
  obtain ⟨r, hr⟩ := e.program.exists_hasInput_zero
  obtain ⟨hlt, hentry⟩ := List.getElem?_eq_some_iff.mp he
  exact {
    parses := Catalogue.parse_of_mem_entries (List.mem_of_getElem? he)
    isCustom_eq := h.isCustom_eq
    maxSteps_eq := h.maxSteps_eq
    stays := by
      intro hcustom
      rw [hcatalogue] at hcustom
      cases hcustom
    entry := fun _ ↦ ⟨hlt, hentry⟩
    run := ⟨r, 0, hr, hr.launch_eq⟩
    within := by
      intro _
      rw [Workbench.showLoaded, Program.steps_launch]
      exact Nat.zero_le _ }

/-! ### The commands -/

/-- A step keeps a session sound: at the limit it makes no move. -/
theorem Sound.stepOnce (h : Sound maxSteps first w) : Sound maxSteps first w.stepOnce := by
  apply h.of_onSameRun w.onSameRun_stepOnce
  · rw [w.execution_stepOnce]
    split
    · exact ⟨0, rfl⟩
    · exact ⟨1, rfl⟩
  · intro hlimit
    have hbefore := h.within hlimit
    rw [w.execution_stepOnce]
    by_cases hat : w.isAtLimit = true
    · rw [if_pos hat]
      exact hbefore
    · rw [if_neg hat]
      rcases w.program.machine.step_cases w.execution with ⟨hmoves, hs⟩ | ⟨-, hs, -⟩
      · have hbelow : ¬maxSteps ≤ w.execution.steps := by
          rintro hle
          rw [← h.maxSteps_eq] at hlimit hle
          exact hat (w.isAtLimit_iff.mpr ⟨hlimit, hle, hmoves⟩)
        omega
      · omega

/-- A finish keeps a session sound: it is allowed no more moves than the limit leaves. -/
theorem Sound.finish (h : Sound maxSteps first w) : Sound maxSteps first w.finish := by
  apply h.of_onSameRun w.onSameRun_finish
  · rw [w.execution_finish]
    exact w.program.machine.exists_runFor_eq _ _
  · intro hlimit
    have hbefore := h.within hlimit
    have hspent := w.program.machine.steps_runBounded_le w.allowance w.execution
    rw [w.execution_finish]
    rw [allowance, h.maxSteps_eq, if_neg hlimit] at hspent ⊢
    omega

/-- To go back to the beginning of the run keeps a session sound. -/
theorem Sound.reset (h : Sound maxSteps first w) : Sound maxSteps first w.reset := by
  obtain ⟨r, -, hr, -⟩ := h.run
  exact h.launch hr _ _

/-- To go on to the next input keeps a session sound. -/
theorem Sound.nextRun (h : Sound maxSteps first w) : Sound maxSteps first w.nextRun := by
  simp only [Workbench.nextRun]
  split
  · exact h.of_execution_eq (w.onSameRun_with ..) rfl
  · next hcount =>
    have hlt : (w.runIndex + 1) % w.program.runs.length < w.program.runs.length :=
      Nat.mod_lt _ (Nat.pos_of_ne_zero hcount)
    exact h.launch (.inl ⟨hlt, rfl⟩) _ _

/-- To show a program of the catalogue keeps a session on the catalogue sound. -/
theorem Sound.showProgram (h : Sound maxSteps first w) (hcatalogue : first.isCustom = false)
    (index : Nat) : Sound maxSteps first (w.showProgram index) := by
  rw [Workbench.showProgram]
  cases he : Catalogue.entries[index]? with
  | none =>
    rw [Catalogue.programAt_of_none he]
    exact h.of_execution_eq (w.onSameRun_with ..) rfl
  | some e =>
    rw [Catalogue.programAt_of_entry he, Catalogue.sourceAt_of_entry he]
    exact h.showLoaded hcatalogue he

/-- To ask for another program keeps a session sound. -/
theorem Sound.switchProgram (h : Sound maxSteps first w) (target : Nat → Nat → Nat) :
    Sound maxSteps first (w.switchProgram target) := by
  simp only [Workbench.switchProgram]
  split
  · exact h.of_execution_eq (w.onSameRun_with ..) rfl
  · next hcustom =>
    have hcatalogue : first.isCustom = false := by
      rw [← h.isCustom_eq]
      simpa using hcustom
    split
    · exact h
    · exact h.showProgram hcatalogue _

/-- Every command but the one that ends a session keeps it sound. -/
theorem Sound.obey {c : Command} (h : Sound maxSteps first w) (hc : w.obey c = some w') :
    Sound maxSteps first w' := by
  cases c with
  | quit => cases hc
  | reset => exact Option.some.inj hc ▸ h.reset
  | step => exact Option.some.inj hc ▸ h.stepOnce
  | finish => exact Option.some.inj hc ▸ h.finish
  | toggleAutoPlay =>
    exact Option.some.inj hc ▸ h.of_execution_eq (w.onSameRun_with ..) rfl
  | toggleConfiguration =>
    exact Option.some.inj hc ▸ h.of_execution_eq (w.onSameRun_with ..) rfl
  | toggleHelp =>
    exact Option.some.inj hc ▸ h.of_execution_eq (w.onSameRun_with ..) rfl
  | nextRun => exact Option.some.inj hc ▸ h.nextRun
  | previousProgram => exact Option.some.inj hc ▸ h.switchProgram _
  | nextProgram => exact Option.some.inj hc ▸ h.switchProgram _

/-- Every input keeps a session sound. -/
theorem Sound.take {i : Input} (h : Sound maxSteps first w) (hi : w.take i = some w') :
    Sound maxSteps first w' := by
  cases i with
  | tick =>
    obtain rfl := Option.some.inj hi
    rcases w.tick_eq_or with ht | ht
    · rw [ht]
      exact h
    · rw [ht]
      exact h.stepOnce
  | key k =>
    rw [Workbench.take, press] at hi
    split at hi
    · exact Option.some.inj hi ▸ h
    · exact h.obey hi

/-! ### The beginning of a session -/

/-- A session that begins with a definition and its program, and with an entry of the catalogue if
it is on the catalogue, is sound. -/
theorem sound_launch {p : Program} {source : String} {isCustom : Bool} {message : String}
    (hp : ∃ warnings, Definition.parse source = .ok (p, warnings))
    (he : isCustom = false → Catalogue.entries[0]? = some ⟨source, p⟩) :
    Sound maxSteps (launch p source isCustom maxSteps message)
      (launch p source isCustom maxSteps message) := by
  obtain ⟨r, hr⟩ := p.exists_hasInput_zero
  exact {
    parses := hp
    isCustom_eq := rfl
    maxSteps_eq := rfl
    stays := fun _ ↦ ⟨rfl, rfl⟩
    entry := fun hcatalogue ↦ List.getElem?_eq_some_iff.mp (he hcatalogue)
    run := ⟨r, 0, hr, hr.launch_eq⟩
    within := by
      intro _
      rw [Workbench.launch, Program.steps_launch]
      exact Nat.zero_le _ }

end

/-- Without the key that ends it, a session goes on through all inputs, and whenever it goes on, it
is sound. -/
def SoundThroughout (maxSteps : Nat) (first : Workbench) : Prop :=
  ∀ inputs : List Input,
    (.key (.char 'q') ∉ inputs → ∃ w, first.after inputs = some w) ∧
      ∀ w, first.after inputs = some w → Sound maxSteps first w

/-- A session that begins sound is sound throughout. -/
theorem Sound.throughout {maxSteps : Nat} {first : Workbench} (h : Sound maxSteps first first) :
    SoundThroughout maxSteps first := by
  intro inputs
  constructor
  · intro hq
    have hstays : ∀ i ∈ inputs, i ≠ .key (.char 'q') := by
      rintro i hi rfl
      exact hq hi
    obtain ⟨w, hw, -⟩ := exists_after (P := fun _ ↦ True)
      (fun w i hi _ ↦ by
        obtain ⟨w', hw'⟩ := Option.ne_none_iff_exists'.mp (mt take_eq_none_iff.mp hi)
        exact ⟨w', hw', trivial⟩) hstays trivial
    exact ⟨w, hw⟩
  · exact fun w hw ↦ after_preserves (fun _ _ _ h hi ↦ h.take hi) h hw

/-- There is a session on the catalogue, and one on every definition that is accepted; both are
sound at all times, under every limit and whatever their inputs. -/
theorem session_sound (maxSteps : Nat) :
    (∃ first, ofCatalogue maxSteps = .ok first ∧ first.isCustom = false ∧
      SoundThroughout maxSteps first) ∧
    (∀ source p warnings, Definition.parse source = .ok (p, warnings) →
      ∃ first, ofSource source maxSteps = .ok first ∧ first.isCustom = true ∧
        first.program = p ∧ first.source = source ∧ SoundThroughout maxSteps first) := by
  constructor
  · obtain ⟨e, he⟩ := Catalogue.exists_entry_zero
    refine ⟨launch e.program e.source false maxSteps "Press 'h' for help.", ?_, rfl, ?_⟩
    · rw [ofCatalogue, Catalogue.programAt_of_entry he, Catalogue.sourceAt_of_entry he]
      rfl
    · exact (sound_launch (Catalogue.parse_of_mem_entries (List.mem_of_getElem? he))
        fun _ ↦ he).throughout
  · intro source p warnings hp
    refine ⟨launch p source true maxSteps "Program loaded from source. Press 'h' for help.", ?_,
      rfl, rfl, rfl, ?_⟩
    · rw [ofSource, hp]
      rfl
    · exact (sound_launch ⟨warnings, hp⟩ fun h ↦ by cases h).throughout

/-- A session on the runner with a limit of one move goes on through a step, a finish, another input
and another program, which a session on a definition of its own refuses. -/
theorem session_sound_runner :
    let source := "name: a\nstates: 1\ntransitions:\n(0,a)->(0,a,R)\nruns:\n\"aa\"@0"
    let p : Program := { runner with mode := .normal }
    let inputs : List Input :=
      [.key (.char ' '), .tick, .key .enter, .key (.char 'n'), .key .right]
    Definition.parse source = .ok (p, []) ∧ .key (.char 'q') ∉ inputs ∧
      ∃ first, ofSource source 1 = .ok first ∧ first.isCustom = true ∧ first.program = p ∧
        first.source = source ∧ ∃ w, first.after inputs = some w ∧ Sound 1 first w := by
  intro source p inputs
  have hparse : Definition.parse source = .ok (p, []) := by decide
  have hq : .key (.char 'q') ∉ inputs := by decide
  obtain ⟨first, hfirst, hcustom, hprogram, hsource, hsound⟩ :=
    (session_sound 1).2 source p [] hparse
  obtain ⟨hgoesOn, hkept⟩ := hsound inputs
  obtain ⟨w, hw⟩ := hgoesOn hq
  exact ⟨hparse, hq, first, hfirst, hcustom, hprogram, hsource, w, hw, hkept w hw⟩

end Workbench

end TapeMachine
