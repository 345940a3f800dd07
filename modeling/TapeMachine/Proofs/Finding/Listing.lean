import TapeMachine.Proofs.Finding.Reachability

/-!
# All findings

Which findings apply to a machine and its inputs is said one by one (`Finding.Applies`). Every
finding has a place: first come the four about the machine, then two for each input. The findings
about a program are all that apply, in the strict order of their places, so there is no other such
list (`findings_eq_iff_ordered`). The order is put together from the lists of the single checks,
each of which keeps to a stretch of places of its own (`Finding.InOrder`).
-/

namespace TapeMachine

namespace Finding

/-- The place of a finding among all findings. -/
def place : Finding → Nat
  | invalidStart _ _ => 0
  | statesOutOfRange _ => 1
  | undeclaredSymbols _ => 2
  | unreachableStates _ => 3
  | undeclaredOnTape run _ => 4 + 2 * run
  | headOffTape run _ _ => 5 + 2 * run

/-- The findings that a machine and its inputs give rise to. A finding with a list names all that is
at fault, and applies if something is. -/
inductive Applies (m : Machine) (runs : List Run) : Finding → Prop
  /-- The start state is not below the declared number. -/
  | invalidStart : m.numStates ≤ m.start.index → Applies m runs (.invalidStart m.start m.numStates)
  /-- The states in which rules fire or which they name as next and that are not below the declared
  number. -/
  | statesOutOfRange {listed : List State} : listed ≠ [] →
      Lists (fun q ↦ m.numStates ≤ q.index ∧
        ∃ r ∈ m.table.rules, q = r.trigger.state ∨ q = r.transition.next) listed →
      Applies m runs (.statesOutOfRange listed)
  /-- The symbols that rules read or write and that are not in the alphabet. -/
  | undeclaredSymbols {listed : List Symbol} : listed ≠ [] →
      Lists (fun s ↦ m.alphabet.contains s = false ∧
        ∃ r ∈ m.table.rules, s = r.trigger.symbol ∨ s = r.transition.write) listed →
      Applies m runs (.undeclaredSymbols listed)
  /-- The states that have rules and cannot be reached. -/
  | unreachableStates {listed : List State} : listed ≠ [] → Lists m.Strands listed →
      Applies m runs (.unreachableStates listed)
  /-- The symbols on the tape of an input that are not in the alphabet. -/
  | undeclaredOnTape {i : Nat} {r : Run} {listed : List Symbol} : runs[i]? = some r →
      listed ≠ [] → Lists (fun s ↦ m.alphabet.contains s = false ∧ s ∈ r.tape.toList) listed →
      Applies m runs (.undeclaredOnTape i listed)
  /-- The head of an input is not on its tape. -/
  | headOffTape {i : Nat} {r : Run} : runs[i]? = some r → ¬(0 ≤ r.head ∧ r.head < r.tape.size) →
      Applies m runs (.headOffTape i r.head r.tape.size)

/-! ### Stretches of places -/

/-- A list of findings strictly ascends through places from `first` to before `last`. -/
structure InOrder (first last : Nat) (l : List Finding) : Prop where
  le : first ≤ last
  pairwise : l.Pairwise fun f g ↦ f.place < g.place
  within : ∀ f ∈ l, first ≤ f.place ∧ f.place < last

namespace InOrder

variable {a b c : Nat} {l l' : List Finding}

theorem nil (h : a ≤ b) : InOrder a b [] := ⟨h, .nil, fun _ h ↦ absurd h List.not_mem_nil⟩

theorem singleton {f : Finding} (h : f.place = a) : InOrder a (a + 1) [f] where
  le := Nat.le_succ a
  pairwise := List.pairwise_singleton _ f
  within g hg := by
    obtain rfl := List.mem_singleton.mp hg
    omega

/-- Findings of later places may follow. -/
theorem append (h : InOrder a b l) (h' : InOrder b c l') : InOrder a c (l ++ l') where
  le := h.le.trans h'.le
  pairwise := List.pairwise_append.mpr ⟨h.pairwise, h'.pairwise, fun f hf g hg ↦
    (h.within f hf).2.trans_le (h'.within g hg).1⟩
  within f hf := by
    rcases List.mem_append.mp hf with hf | hf
    · exact ⟨(h.within f hf).1, (h.within f hf).2.trans_le h'.le⟩
    · exact ⟨h.le.trans (h'.within f hf).1, (h'.within f hf).2⟩

theorem ifAny {α : Type} {make : List α → Finding} (h : ∀ listed, (make listed).place = a)
    (listed : List α) : InOrder a (a + 1) (ifAny make listed) := by
  cases listed with
  | nil => exact nil (Nat.le_succ a)
  | cons _ _ => exact singleton (h _)

theorem ite {p : Prop} [Decidable p] {f : Finding} (h : f.place = a) :
    InOrder a (a + 1) (if p then [f] else []) := by
  split
  · exact singleton h
  · exact nil (Nat.le_succ a)

end InOrder

end Finding

namespace Machine

variable (m : Machine)

open Finding (ifAny InOrder mem_ifAny_iff)

/-! ### The order of the checks -/

theorem inOrder_findings : InOrder 0 4 m.findings := by
  have hstates : InOrder 1 2 (ifAny .statesOutOfRange m.statesOutOfRange) :=
    .ifAny (by intro; rfl) _
  have hsymbols : InOrder 2 3 (ifAny .undeclaredSymbols (m.undeclared m.mentionedSymbols)) :=
    .ifAny (by intro; rfl) _
  have hstranded : InOrder 3 4 (ifAny .unreachableStates m.unreachableStates) :=
    .ifAny (by intro; rfl) _
  rw [findings_eq]
  exact (((InOrder.ite (by rfl)).append hstates).append hsymbols).append hstranded

theorem inOrder_runFindings (i : Nat) (r : Run) :
    InOrder (4 + 2 * i) (4 + 2 * (i + 1)) (m.runFindings i r) := by
  have htape : InOrder (4 + 2 * i) (4 + 2 * i + 1)
      (ifAny (.undeclaredOnTape i) (m.undeclared r.tape.toList)) := .ifAny (by intro; rfl) _
  have hhead : (Finding.headOffTape i r.head r.tape.size).place = 4 + 2 * i + 1 := by
    simp only [Finding.place]
    omega
  rw [runFindings_eq, ← ite_not]
  exact htape.append (.ite hhead)

/-- The findings about inputs from the `i`th on. -/
theorem inOrder_flatMap_runFindings (runs : List Run) (i : Nat) :
    InOrder (4 + 2 * i) (4 + 2 * (i + runs.length))
      ((runs.zipIdx i).flatMap fun r ↦ m.runFindings r.2 r.1) := by
  induction runs generalizing i with
  | nil => exact .nil (Nat.le_refl _)
  | cons r runs ih =>
    rw [List.zipIdx_cons, List.flatMap_cons, List.length_cons, ← Nat.add_assoc,
      Nat.add_right_comm]
    exact (m.inOrder_runFindings i r).append (ih (i + 1))

/-! ### The lists of the checks -/

variable {m}

theorem lists_statesOutOfRange (m : Machine) : Lists (fun q ↦ m.numStates ≤ q.index ∧
    ∃ r ∈ m.table.rules, q = r.trigger.state ∨ q = r.transition.next) m.statesOutOfRange where
  ascending := SortedSet.pairwise_toList _
  mem_iff q := by
    rw [mem_statesOutOfRange_iff, and_comm, mentionedStates]
    simp only [List.mem_flatMap, List.mem_cons, List.not_mem_nil, or_false]

theorem lists_undeclared (m : Machine) (symbols : List Symbol) :
    Lists (fun s ↦ m.alphabet.contains s = false ∧ s ∈ symbols) (m.undeclared symbols) where
  ascending := SortedSet.pairwise_toList _
  mem_iff s := by rw [mem_undeclared_iff, and_comm]

theorem lists_undeclared_mentionedSymbols (m : Machine) :
    Lists (fun s ↦ m.alphabet.contains s = false ∧
      ∃ r ∈ m.table.rules, s = r.trigger.symbol ∨ s = r.transition.write)
      (m.undeclared m.mentionedSymbols) := by
  simpa only [mentionedSymbols, List.mem_flatMap, List.mem_cons, List.not_mem_nil, or_false]
    using m.lists_undeclared m.mentionedSymbols

end Machine

/-- The findings about a program are those that apply to its machine and its inputs. -/
theorem Program.mem_findings_iff {p : Program} {f : Finding} :
    f ∈ p.findings ↔ f.Applies p.machine p.runs := by
  simp only [findings, List.mem_append, List.mem_flatMap, Prod.exists,
    List.mem_zipIdx_iff_getElem?, Machine.mem_findings_iff, Machine.mem_runFindings_iff]
  constructor
  · rintro ((⟨h, rfl⟩ | ⟨h, rfl⟩ | ⟨h, rfl⟩ | ⟨h, rfl⟩) | ⟨r, i, hr, ⟨h, rfl⟩ | ⟨h, rfl⟩⟩)
    · exact .invalidStart h
    · exact .statesOutOfRange h p.machine.lists_statesOutOfRange
    · exact .undeclaredSymbols h p.machine.lists_undeclared_mentionedSymbols
    · exact .unreachableStates h p.machine.lists_unreachableStates
    · exact .undeclaredOnTape hr h (p.machine.lists_undeclared _)
    · exact .headOffTape hr h
  · intro h
    cases h with
    | invalidStart h => exact .inl (.inl ⟨h, rfl⟩)
    | statesOutOfRange hne h =>
      obtain rfl := h.unique p.machine.lists_statesOutOfRange
      exact .inl (.inr (.inl ⟨hne, rfl⟩))
    | undeclaredSymbols hne h =>
      obtain rfl := h.unique p.machine.lists_undeclared_mentionedSymbols
      exact .inl (.inr (.inr (.inl ⟨hne, rfl⟩)))
    | unreachableStates hne h =>
      obtain rfl := h.unique p.machine.lists_unreachableStates
      exact .inl (.inr (.inr (.inr ⟨hne, rfl⟩)))
    | undeclaredOnTape hr hne h =>
      obtain rfl := h.unique (p.machine.lists_undeclared _)
      exact .inr ⟨_, _, hr, .inl ⟨hne, rfl⟩⟩
    | headOffTape hr h => exact .inr ⟨_, _, hr, .inr ⟨h, rfl⟩⟩

/-- A list is that of the findings about a program exactly if it holds the findings that apply to
the machine and its inputs and no others, in the strict order of their places: at most one of each
kind about the machine, then, input by input, at most one about the tape and one about the head.
The mode and the name of a program have no part in that. -/
theorem Program.findings_eq_iff_ordered (p : Program) :
    (∀ l, p.findings = l ↔ l.Pairwise (fun f g ↦ f.place < g.place) ∧
      ∀ f, f ∈ l ↔ f.Applies p.machine p.runs) ∧
    ∀ mode name, Program.findings { p with mode, name } = p.findings := by
  have horder : p.findings.Pairwise fun f g ↦ f.place < g.place := by
    have hruns := p.machine.inOrder_flatMap_runFindings p.runs 0
    exact (p.machine.inOrder_findings.append hruns).pairwise
  refine ⟨fun l ↦ ?_, fun _ _ ↦ rfl⟩
  constructor
  · rintro rfl
    exact ⟨horder, fun f ↦ mem_findings_iff⟩
  · rintro ⟨hl, hmem⟩
    exact eq_of_pairwise_lt horder hl fun f ↦ mem_findings_iff.trans (hmem f).symm

end TapeMachine
