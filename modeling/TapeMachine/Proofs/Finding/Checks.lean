import TapeMachine.Finding
import TapeMachine.Proofs.Execution.Round

/-!
# What the checks say

Each list of states or symbols that is checked for holds exactly those that are at fault, and a
finding is made exactly if its list is not empty (`Machine.mem_findings_iff`,
`Machine.mem_runFindings_iff`). So a program without findings is consistent: its rules lead to
declared states and write declared symbols (`Machine.Consistent`), and its inputs begin on their
tapes, which hold declared symbols (`Machine.Declares`).
-/

namespace TapeMachine

/-- The finding of a check that names all that is at fault, if something is. -/
def Finding.ifAny {α : Type} (make : List α → Finding) : List α → List Finding
  | [] => []
  | a :: listed => [make (a :: listed)]

theorem Finding.mem_ifAny_iff {α : Type} {make : List α → Finding} {listed : List α}
    {f : Finding} : f ∈ ifAny make listed ↔ listed ≠ [] ∧ f = make listed := by
  cases listed <;> simp [ifAny]

theorem Finding.ifAny_eq_nil_iff {α : Type} {make : List α → Finding} {listed : List α} :
    ifAny make listed = [] ↔ listed = [] := by
  cases listed <;> simp [ifAny]

namespace Machine

variable {m : Machine}

open Finding (ifAny mem_ifAny_iff ifAny_eq_nil_iff)

/-- The undeclared symbols of a list are those that are not in the alphabet. -/
theorem mem_undeclared_iff {symbols : List Symbol} {s : Symbol} :
    s ∈ m.undeclared symbols ↔ s ∈ symbols ∧ m.alphabet.contains s = false := by
  rw [undeclared, SortedSet.mem_toList_iff, SortedSet.contains_ofList, List.mem_filter,
    Bool.not_eq_true']

/-- The states out of range are the mentioned ones that are not below the declared number. -/
theorem mem_statesOutOfRange_iff {q : State} :
    q ∈ m.statesOutOfRange ↔ q ∈ m.mentionedStates ∧ m.numStates ≤ q.index := by
  rw [statesOutOfRange, SortedSet.mem_toList_iff, SortedSet.contains_ofList, List.mem_filter,
    decide_eq_true_iff]

/-- The unreachable states are the sources of rules that the search does not meet. -/
theorem mem_unreachableStates_iff {q : State} :
    q ∈ m.unreachableStates ↔
      (∃ r ∈ m.table.rules, r.trigger.state = q) ∧ m.reachable.contains q = false := by
  rw [unreachableStates, SortedSet.mem_toList_iff, SortedSet.contains_ofList, List.mem_filter,
    List.mem_map, Bool.not_eq_true']

/-- There are no undeclared symbols in a list exactly if all its symbols are declared. -/
theorem undeclared_eq_nil_iff {symbols : List Symbol} :
    m.undeclared symbols = [] ↔ ∀ s ∈ symbols, m.alphabet.contains s = true := by
  simp [List.eq_nil_iff_forall_not_mem, mem_undeclared_iff]

/-- There are no states out of range exactly if all mentioned states are below the declared number.
-/
theorem statesOutOfRange_eq_nil_iff :
    m.statesOutOfRange = [] ↔ ∀ q ∈ m.mentionedStates, q.index < m.numStates := by
  simp [List.eq_nil_iff_forall_not_mem, mem_statesOutOfRange_iff]

/-- The findings about a machine are those of four checks. -/
theorem findings_eq (m : Machine) : m.findings =
    (if m.numStates ≤ m.start.index then [.invalidStart m.start m.numStates] else []) ++
      ifAny .statesOutOfRange m.statesOutOfRange ++
      ifAny .undeclaredSymbols (m.undeclared m.mentionedSymbols) ++
      ifAny .unreachableStates m.unreachableStates := by
  rw [findings]
  generalize m.statesOutOfRange = states, m.undeclared m.mentionedSymbols = symbols,
    m.unreachableStates = stranded
  cases states <;> cases symbols <;> cases stranded <;> rfl

/-- The findings about an input are those of two checks. -/
theorem runFindings_eq (m : Machine) (number : Nat) (r : Run) : m.runFindings number r =
    ifAny (.undeclaredOnTape number) (m.undeclared r.tape.toList) ++
      if (r.tape.index? r.head).isSome then [] else [.headOffTape number r.head r.tape.size] := by
  rw [runFindings]
  generalize m.undeclared r.tape.toList = symbols
  cases symbols <;> rfl

/-- The findings about a machine one by one. -/
theorem mem_findings_iff {f : Finding} : f ∈ m.findings ↔
    (m.numStates ≤ m.start.index ∧ f = .invalidStart m.start m.numStates) ∨
    (m.statesOutOfRange ≠ [] ∧ f = .statesOutOfRange m.statesOutOfRange) ∨
    (m.undeclared m.mentionedSymbols ≠ [] ∧
      f = .undeclaredSymbols (m.undeclared m.mentionedSymbols)) ∨
    (m.unreachableStates ≠ [] ∧ f = .unreachableStates m.unreachableStates) := by
  simp only [findings_eq, List.mem_append, List.mem_ite_nil_right, List.mem_singleton,
    mem_ifAny_iff, or_assoc]

/-- The findings about an input one by one. -/
theorem mem_runFindings_iff {f : Finding} {number : Nat} {r : Run} :
    f ∈ m.runFindings number r ↔
      (m.undeclared r.tape.toList ≠ [] ∧
        f = .undeclaredOnTape number (m.undeclared r.tape.toList)) ∨
      (¬(0 ≤ r.head ∧ r.head < r.tape.size) ∧ f = .headOffTape number r.head r.tape.size) := by
  simp only [runFindings_eq, List.mem_append, List.mem_ite_nil_left, List.mem_singleton,
    mem_ifAny_iff, Tape.isSome_index?_iff]

/-- The finding about unreachable states lists all of them, and is made if there are any. -/
theorem unreachableStates_mem_findings_iff {listed : List State} :
    Finding.unreachableStates listed ∈ m.findings ↔ listed = m.unreachableStates ∧ listed ≠ [] := by
  simp only [mem_findings_iff, Finding.unreachableStates.injEq, reduceCtorEq, and_false, false_or]
  constructor
  · rintro ⟨hne, rfl⟩
    exact ⟨rfl, hne⟩
  · rintro ⟨rfl, hne⟩
    exact ⟨hne, rfl⟩

/-- There is no finding about a machine exactly if its start state is in range and none of the
lists of findings has a member. -/
theorem findings_eq_nil_iff :
    m.findings = [] ↔ m.start.index < m.numStates ∧ m.statesOutOfRange = [] ∧
      m.undeclared m.mentionedSymbols = [] ∧ m.unreachableStates = [] := by
  have hstart : (if m.numStates ≤ m.start.index then
      [Finding.invalidStart m.start m.numStates] else []) = [] ↔ m.start.index < m.numStates := by
    split <;> simp <;> omega
  rw [findings_eq]
  simp only [List.append_eq_nil_iff, ifAny_eq_nil_iff, hstart, and_assoc]

/-- There is no finding about an input exactly if its symbols are declared and its head begins on
its tape. -/
theorem runFindings_eq_nil_iff {number : Nat} {r : Run} :
    m.runFindings number r = [] ↔
      (∀ s ∈ r.tape.toList, m.alphabet.contains s = true) ∧ r.tape.Covers r.head := by
  rw [← undeclared_eq_nil_iff, Tape.Covers, ← Tape.isSome_index?_iff, runFindings_eq,
    List.append_eq_nil_iff, ifAny_eq_nil_iff]
  refine and_congr_right fun _ ↦ ?_
  split <;> simp_all

/-- The start state, the states that rules lead to and the symbols that they write are declared. -/
structure Consistent (m : Machine) : Prop where
  start_lt : m.start.index < m.numStates
  next_lt : ∀ q s t, m.HasRule q s t → t.next.index < m.numStates
  write_declared : ∀ q s t, m.HasRule q s t → m.alphabet.contains t.write = true

/-- A tape holds declared symbols only. -/
def Declares (m : Machine) (tape : Tape) : Prop :=
  ∀ s ∈ tape.toList, m.alphabet.contains s = true

/-- A machine without findings is consistent. -/
theorem consistent_of_findings_eq_nil (h : m.findings = []) : m.Consistent := by
  obtain ⟨hstart, hstates, hsymbols, -⟩ := findings_eq_nil_iff.mp h
  rw [statesOutOfRange_eq_nil_iff] at hstates
  rw [undeclared_eq_nil_iff] at hsymbols
  refine ⟨hstart, fun q s t ht ↦ hstates _ ?_, fun q s t ht ↦ hsymbols _ ?_⟩
  · exact List.mem_flatMap.mpr ⟨_, ht, by simp⟩
  · exact List.mem_flatMap.mpr ⟨_, ht, by simp⟩

end Machine

/-- There is no finding about a program exactly if there is none about its machine and none about
any of its inputs. -/
theorem Program.findings_eq_nil_iff {p : Program} :
    p.findings = [] ↔ p.machine.findings = [] ∧
      ∀ r ∈ p.runs, p.machine.Declares r.tape ∧ r.tape.Covers r.head := by
  rw [findings, List.append_eq_nil_iff, List.flatMap_eq_nil_iff]
  refine and_congr_right fun _ ↦ ?_
  constructor
  · intro h r hr
    obtain ⟨i, hi⟩ := List.mem_iff_getElem?.mp hr
    exact Machine.runFindings_eq_nil_iff.mp (h (r, i) (List.mem_zipIdx_iff_getElem?.mpr hi))
  · rintro h ⟨r, i⟩ hr
    exact Machine.runFindings_eq_nil_iff.mpr
      (h r (List.mem_of_getElem? (List.mem_zipIdx_iff_getElem?.mp hr)))

/-- The finding about unreachable states is one about the machine. -/
theorem Program.unreachableStates_mem_findings_iff {p : Program} {listed : List State} :
    Finding.unreachableStates listed ∈ p.findings ↔
      listed = p.machine.unreachableStates ∧ listed ≠ [] := by
  rw [findings, List.mem_append, Machine.unreachableStates_mem_findings_iff]
  refine or_iff_left ?_
  simp [List.mem_flatMap, Machine.mem_runFindings_iff]

/-- A strict program that passes its check has no findings. -/
theorem Program.findings_eq_nil_of_check {p : Program} (hm : p.mode = .strict)
    {warnings : List Finding} (h : p.check = .ok warnings) : p.findings = [] := by
  rw [check, hm] at h
  cases hf : p.findings with
  | nil => rfl
  | cons first rest =>
    rw [hf] at h
    cases h

end TapeMachine
