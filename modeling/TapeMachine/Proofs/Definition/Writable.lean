import TapeMachine.Definition.Written
import TapeMachine.Proofs.Text.Trim

/-!
# Writable programs

Which programs have a definition file. The grammar has no way to write a quote as a symbol, a double
quote on a tape, a name with a comment or a line break in it, or blanks at the ends of a name, and
none to declare that there are no symbols. Besides, counts, states and head positions have limits.
-/

namespace TapeMachine

/-- What the grammar demands of a program. -/
structure Program.Writable (p : Program) : Prop where
  name_ne : p.name ≠ ""
  name_trimmed : Text.Trimmed p.name.toList
  name_inLine : ∀ c ∈ p.name.toList, c ≠ '\r' ∧ c ≠ '\n'
  name_plain : ¬"//".toList <:+: p.name.toList
  alphabet_quote : ∀ s ∈ p.machine.alphabet.toList, s.char ≠ '\''
  rules_quote : ∀ r ∈ p.machine.table.rules,
    r.trigger.symbol.char ≠ '\'' ∧ r.transition.write.char ≠ '\''
  alphabet_ne : p.machine.alphabet.toList = [] → p.machine.table.rules = []
  tapes_quote : ∀ r ∈ p.runs, ∀ s ∈ r.tape.toList, s.char ≠ '"'

/-- The counts, the states and the head positions of a program are within the limits. -/
structure Program.Representable (p : Program) : Prop where
  states : p.machine.numStates ≤ maxCount
  start : p.machine.start.index ≤ maxCount
  rules : ∀ r ∈ p.machine.table.rules,
    r.trigger.state.index ≤ maxCount ∧ r.transition.next.index ≤ maxCount
  heads : ∀ r ∈ p.runs, minPosition ≤ r.head ∧ r.head ≤ maxPosition

namespace Definition

/-- A rule that can be written. -/
structure WritableRule (r : Rule) : Prop where
  state : r.trigger.state.index ≤ maxCount
  symbol : r.trigger.symbol.char ≠ '\''
  next : r.transition.next.index ≤ maxCount
  write : r.transition.write.char ≠ '\''

/-- An input that can be written. -/
structure WritableRun (r : Run) : Prop where
  tape : ∀ s ∈ r.tape.toList, s.char ≠ '"'
  head : minPosition ≤ r.head ∧ r.head ≤ maxPosition

/-- A name that can be written, unless it is empty. -/
structure WritableName (n : List Char) : Prop where
  trimmed : Text.Trimmed n
  inLine : ∀ c ∈ n, c ≠ '\r' ∧ c ≠ '\n'
  plain : ¬"//".toList <:+: n

/-- What a section can say, the empty name apart. -/
def Statement.Writable : Statement → Prop
  | name n => WritableName n.toList
  | mode _ => True
  | states n => n ≤ maxCount
  | start q => q.index ≤ maxCount
  | alphabet symbols => symbols ≠ [] ∧ ∀ s ∈ symbols, s.char ≠ '\''
  | transitions rules => ∀ r ∈ rules, WritableRule r
  | runs rs => ∀ r ∈ rs, WritableRun r

/-- The alphabet is said exactly if it has symbols. -/
theorem mem_alphabetStatements {symbols : List Symbol} {s : Statement} :
    s ∈ alphabetStatements symbols ↔ symbols ≠ [] ∧ s = .alphabet symbols := by
  cases symbols with
  | nil => simp [alphabetStatements]
  | cons a as => simp [alphabetStatements]

/-- A program can be written exactly if all that its sections say can be. -/
theorem writable_iff {p : Program} :
    p.Writable ∧ p.Representable ↔
      p.name ≠ "" ∧ (p.machine.alphabet.toList = [] → p.machine.table.rules = []) ∧
        ∀ s ∈ statementsOf p, s.Writable := by
  constructor
  · rintro ⟨hw, hr⟩
    refine ⟨hw.name_ne, hw.alphabet_ne, fun s hs ↦ ?_⟩
    simp only [statementsOf, List.mem_append, List.mem_cons, List.not_mem_nil, or_false,
      mem_alphabetStatements] at hs
    rcases hs with ((rfl | rfl | rfl | rfl) | ⟨hne, rfl⟩) | rfl | rfl
    · exact ⟨hw.name_trimmed, hw.name_inLine, hw.name_plain⟩
    · trivial
    · exact hr.states
    · exact hr.start
    · exact ⟨hne, hw.alphabet_quote⟩
    · intro r hmem
      exact ⟨(hr.rules r hmem).1, (hw.rules_quote r hmem).1, (hr.rules r hmem).2,
        (hw.rules_quote r hmem).2⟩
    · intro r hmem
      exact ⟨hw.tapes_quote r hmem, hr.heads r hmem⟩
  · rintro ⟨hname, halphabet, h⟩
    have hn : WritableName p.name.toList := h (.name p.name) (by simp [statementsOf])
    have hs : p.machine.numStates ≤ maxCount := h (.states _) (by simp [statementsOf])
    have hq : p.machine.start.index ≤ maxCount := h (.start _) (by simp [statementsOf])
    have hrules : ∀ r ∈ p.machine.table.rules, WritableRule r :=
      h (.transitions _) (by simp [statementsOf])
    have hruns : ∀ r ∈ p.runs, WritableRun r := h (.runs _) (by simp [statementsOf])
    have hsymbols : ∀ s ∈ p.machine.alphabet.toList, s.char ≠ '\'' := by
      intro s hmem
      have hne := List.ne_nil_of_mem hmem
      exact (h (.alphabet _) (by simp [statementsOf, mem_alphabetStatements, hne])).2 s hmem
    constructor
    · exact ⟨hname, hn.trimmed, hn.inLine, hn.plain, hsymbols,
        fun r hr ↦ ⟨(hrules r hr).symbol, (hrules r hr).write⟩, halphabet,
        fun r hr ↦ (hruns r hr).tape⟩
    · exact ⟨hs, hq, fun r hr ↦ ⟨(hrules r hr).state, (hrules r hr).next⟩,
        fun r hr ↦ (hruns r hr).head⟩

end Definition

end TapeMachine
