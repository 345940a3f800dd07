import TapeMachine.Proofs.Definition.Agreement
import TapeMachine.Proofs.Definition.Inspection
import TapeMachine.Proofs.Table

/-!
# What becomes of a file

A file of the right form is refused for the first of its parts that is at fault; else for the first
section that is missing; else, if it is strict, for the first rule that is defined again, and else
for the first finding; and else it is accepted as the program that its sections describe
(`parse_eq_iff_verdict`).
-/

namespace TapeMachine.Definition

variable {secs : List (Located Section)} {d : Draft} {rules others : List (Located Rule)}
  {r : Located Rule} {p p' : Program}

/-! ### Programs -/

/-- Of the rules for a trigger the last counts. -/
theorem lookup_foldl_define (rules : List (Located Rule)) (t : Table) (q : State) (s : Symbol) :
    ((rules.map Located.value).foldl Table.define t).lookup q s =
      ((rules.reverse.find? fun r ↦ r.value.trigger = ⟨q, s⟩).map
        fun r ↦ r.value.transition).or (t.lookup q s) := by
  rw [Table.lookup_foldl_define, ← List.map_reverse, List.find?_map, Option.map_map]
  rfl

/-- The program is the one that a draft with these rules describes: without a start it starts in the
first state, without a mode it is normal, without an alphabet it has the symbols of all its rules,
and of the rules for a trigger the last counts. -/
structure Describes (d : Draft) (rules : List (Located Rule)) (p : Program) : Prop where
  name : d.name = some p.name
  mode : p.mode = d.mode.getD .normal
  states : d.states = some p.machine.numStates
  start : p.machine.start = d.start.getD ⟨0⟩
  alphabet : ∀ s, p.machine.alphabet.contains s = true ↔
    match d.alphabet with
    | some symbols => s ∈ symbols
    | none => ∃ r ∈ rules, s = r.value.trigger.symbol ∨ s = r.value.transition.write
  table : ∀ q s, p.machine.table.lookup q s =
    (rules.reverse.find? fun r ↦ r.value.trigger = ⟨q, s⟩).map fun r ↦ r.value.transition
  runs : p.runs = d.runs.getD []
  rules : d.rules = some rules

/-- A draft with the parts that must be there describes its program. -/
theorem describes_described {name : String} {n : Nat} (hname : d.name = some name)
    (hstates : d.states = some n) (hrules : d.rules = some rules) :
    Describes d rules (d.described name n rules) where
  name := hname
  mode := rfl
  states := hstates
  start := rfl
  alphabet s := by
    rw [Draft.described, SortedSet.contains_ofList]
    cases d.alphabet with
    | some symbols => rfl
    | none => simp [alphabetOf]
  table q s := by
    rw [Draft.described, tableOf, lookup_foldl_define, Table.lookup, SortedMap.find?_empty,
      Option.or_none]
  runs := rfl
  rules := hrules

/-- A draft describes one program. -/
theorem Describes.unique (h : Describes d rules p) (h' : Describes d rules p') : p = p' := by
  have halphabet : p.machine.alphabet = p'.machine.alphabet :=
    SortedSet.ext_contains fun s ↦ (h.alphabet s).trans (h'.alphabet s).symm
  have htable : p.machine.table = p'.machine.table :=
    Table.ext_lookup fun q s ↦ (h.table q s).trans (h'.table q s).symm
  have hstart := h.start.trans h'.start.symm
  have hmode := h.mode.trans h'.mode.symm
  have hruns := h.runs.trans h'.runs.symm
  have hname := Option.some.inj (h.name.symm.trans h'.name)
  have hstates := Option.some.inj (h.states.symm.trans h'.states)
  obtain ⟨name, mode, ⟨n, start, alphabet, table⟩, runs⟩ := p
  obtain ⟨name', mode', ⟨n', start', alphabet', table'⟩, runs'⟩ := p'
  rw [Program.mk.injEq, Machine.mk.injEq]
  exact ⟨hname, hmode, ⟨hstates, hstart, halphabet, htable⟩, hruns⟩

/-- A draft is the program that it describes, unless the file is strict and defines a rule again. -/
theorem Describes.program_eq_ok (h : Describes d rules p)
    (hmode : p.mode = .strict → redefined [] rules = []) :
    d.program = .ok (p, (redefined [] rules).map fun r ↦ r.value.trigger) := by
  have hp := h.unique (describes_described h.name h.states h.rules)
  rw [h.mode] at hmode
  rw [Draft.program_eq h.name h.states h.rules, foldlM_defineRule_ok (defines_blank _ _ _) hmode]
  exact congrArg (fun q ↦ Except.ok (q, (redefined [] rules).map fun r ↦ r.value.trigger)) hp.symm

/-- A strict draft that defines a rule again is refused. -/
theorem Describes.program_eq_error (h : Describes d rules p) (hmode : p.mode = .strict)
    (hr : redefined [] rules = r :: others) :
    d.program = .error (.faulty (.repeatedRule r.value.trigger) r.span) := by
  rw [h.mode] at hmode
  rw [Draft.program_eq h.name h.states h.rules, hmode,
    foldlM_defineRule_error (defines_blank _ _ _) hr]
  rfl

/-! ### Missing sections -/

/-- The first of the sections that must be there that is missing. -/
def missing? (secs : List (Located Section)) : Option SectionKind :=
  [.name, .states, .transitions].find? fun k ↦ secs.all fun s ↦ s.value.kind ≠ k

theorem Draft.Gathers.missing?_eq (h : d.Gathers secs) :
    missing? secs = [.name, .states, .transitions].find? fun k ↦ !d.has k := by
  rw [missing?]
  congr 1
  funext k
  cases hk : d.has k with
  | true =>
    obtain ⟨s, hs, rfl⟩ := h.heard k hk
    simpa using ⟨s, hs, rfl⟩
  | false =>
    have hnone : ∀ s ∈ secs, s.value.kind ≠ k := by
      rintro s hs rfl
      rw [Draft.has_of_heldBy (h.held s hs)] at hk
      cases hk
    simpa using hnone

/-- A draft is refused for the first section that is missing. -/
theorem Draft.Gathers.program_eq_error (h : d.Gathers secs) {kind : SectionKind}
    (hkind : missing? secs = some kind) : d.program = .error (.missing kind) := by
  rw [h.missing?_eq] at hkind
  cases hname : d.name with
  | none =>
    obtain rfl : .name = kind := by simpa [has, hname] using hkind
    rw [Draft.program, hname]
    rfl
  | some name =>
    cases hstates : d.states with
    | none =>
      obtain rfl : .states = kind := by simpa [has, hname, hstates] using hkind
      rw [Draft.program, hname, hstates]
      rfl
    | some n =>
      cases hrules : d.rules with
      | none =>
        obtain rfl : .transitions = kind := by simpa [has, hname, hstates, hrules] using hkind
        rw [Draft.program, hname, hstates, hrules]
        rfl
      | some rules => simp [has, hname, hstates, hrules] at hkind

/-- A draft describes a program if no section is missing. -/
theorem Draft.Gathers.exists_describes (h : d.Gathers secs) (hnone : missing? secs = none) :
    ∃ rules p, Describes d rules p := by
  rw [h.missing?_eq] at hnone
  have hhas : ∀ k ∈ [SectionKind.name, .states, .transitions], d.has k = true := by
    simpa using List.find?_eq_none.mp hnone
  obtain ⟨name, hname⟩ := Option.isSome_iff_exists.mp (hhas .name (by simp))
  obtain ⟨n, hn⟩ := Option.isSome_iff_exists.mp (hhas .states (by simp))
  obtain ⟨rules, hrules⟩ := Option.isSome_iff_exists.mp (hhas .transitions (by simp))
  exact ⟨rules, _, describes_described hname hn hrules⟩

/-! ### Verdicts -/

/-- What becomes of a file with these sections. -/
inductive Verdict (secs : List (Located Section)) : Except Error (Program × List Warning) → Prop
  /-- Of the parts that are at fault this one begins first. -/
  | faulty {p : Located Part} {fault : Fault} : p ∈ partsOf secs → AtFault secs p fault →
      (∀ q ∈ partsOf secs, ∀ fault', AtFault secs q fault' → p.span.start ≤ q.span.start) →
      Verdict secs (.error (.faulty fault p.span))
  /-- No part is at fault, but this section is the first that is missing. -/
  | missing {kind : SectionKind} : Sound secs (partsOf secs) → missing? secs = some kind →
      Verdict secs (.error (.missing kind))
  /-- The file is strict, and this rule is the first that is defined again. -/
  | repeatedRule {d : Draft} {rules others : List (Located Rule)} {p : Program} {r : Located Rule} :
      Sound secs (partsOf secs) → d.Gathers secs → Describes d rules p → p.mode = .strict →
      redefined [] rules = r :: others →
      Verdict secs (.error (.faulty (.repeatedRule r.value.trigger) r.span))
  /-- The file is strict and defines no rule again, and this is the first finding. -/
  | finding {d : Draft} {rules : List (Located Rule)} {p : Program} {f : Finding}
      {others : List Finding} :
      Sound secs (partsOf secs) → d.Gathers secs → Describes d rules p → p.mode = .strict →
      redefined [] rules = [] → p.findings = f :: others →
      Verdict secs (.error (.finding f))
  /-- The program is what the file describes; there is nothing to warn about if it is strict. -/
  | accepted {d : Draft} {rules : List (Located Rule)} {p : Program} :
      Sound secs (partsOf secs) → d.Gathers secs → Describes d rules p →
      (p.mode = .strict → redefined [] rules = [] ∧ p.findings = []) →
      Verdict secs (.ok (p, (redefined [] rules).map (fun r ↦ .redefined r.value.trigger) ++
        p.findings.map .finding))

variable {x : Except Error (Program × List Warning)}

/-- The parts of a file begin one behind the other. -/
abbrev InOrder (secs : List (Located Section)) : Prop :=
  (partsOf secs).Pairwise fun p q ↦ p.span.start < q.span.start

/-- The first part of a list that is at fault begins before the others that are. -/
theorem eq_or_start_lt {before after : List (Located Part)} {p q : Located Part} {fault : Fault}
    (hasc : (before ++ p :: after).Pairwise fun p q ↦ p.span.start < q.span.start)
    (hbefore : Sound secs before) (hq : q ∈ before ++ p :: after) (hfault : AtFault secs q fault) :
    q = p ∨ p.span.start < q.span.start := by
  rcases List.mem_append.mp hq with hq | hq
  · exact absurd hfault (hbefore q hq fault)
  · obtain ⟨hlt, -⟩ := List.pairwise_cons.mp (List.pairwise_append.mp hasc).2.1
    exact (List.mem_cons.mp hq).imp id (hlt q)

/-- Sound sections are gathered in a draft. -/
theorem exists_ofSections_of_sound (hasc : InOrder secs) (h : Sound secs (partsOf secs)) :
    ∃ d, Draft.ofSections secs = .ok d ∧ d.Gathers secs := by
  have hread := Draft.inspects_ofSections hasc
  cases hd : Draft.ofSections secs with
  | ok d =>
    rw [hd] at hread
    exact ⟨d, rfl, hread.2⟩
  | error e =>
    rw [hd] at hread
    obtain ⟨before, p, after, fault, hparts, -, hp, -⟩ := hread
    exact absurd hp (h p (hparts ▸ List.mem_append_right _ List.mem_cons_self) fault)

theorem ofSections_eq_ok (hasc : InOrder secs) (h : Sound secs (partsOf secs))
    (hd : d.Gathers secs) : Draft.ofSections secs = .ok d := by
  obtain ⟨d', hread, hd'⟩ := exists_ofSections_of_sound hasc h
  rwa [hd'.unique hd] at hread

/-- The part at fault that begins first is what the sections are refused for. -/
theorem ofSections_eq_error (hasc : InOrder secs) {p : Located Part} {fault : Fault}
    (hp : p ∈ partsOf secs) (hfault : AtFault secs p fault)
    (hfirst : ∀ q ∈ partsOf secs, ∀ fault', AtFault secs q fault' →
      p.span.start ≤ q.span.start) :
    Draft.ofSections secs = .error (.faulty fault p.span) := by
  have hread := Draft.inspects_ofSections hasc
  cases hd : Draft.ofSections secs with
  | ok d =>
    rw [hd] at hread
    exact absurd hfault (hread.1 p hp fault)
  | error e =>
    rw [hd] at hread
    obtain ⟨before, q, after, fault', hparts, hbefore, hq, rfl⟩ := hread
    have hle := hfirst q (hparts ▸ List.mem_append_right _ List.mem_cons_self) fault' hq
    rw [InOrder, hparts] at hasc
    rcases eq_or_start_lt hasc hbefore (hparts ▸ hp) hfault with rfl | hlt
    · rw [hfault.unique hq]
    · omega

/-- A program that is not strict, or has no findings, is accepted with its findings. -/
theorem check_eq_ok (h : p.mode = .strict → p.findings = []) : p.check = .ok p.findings := by
  rw [Program.check]
  cases hmode : p.mode with
  | normal => rfl
  | strict => rw [h hmode]

/-- There is a verdict on every file. -/
theorem exists_verdict (hasc : InOrder secs) : ∃ x, Verdict secs x := by
  have hread := Draft.inspects_ofSections hasc
  cases hd : Draft.ofSections secs with
  | error e =>
    rw [hd] at hread
    obtain ⟨before, p, after, fault, hparts, hbefore, hp, -⟩ := hread
    refine ⟨_, .faulty (hparts ▸ List.mem_append_right _ List.mem_cons_self) hp
      fun q hq fault' hq' ↦ ?_⟩
    rw [InOrder, hparts] at hasc
    rcases eq_or_start_lt hasc hbefore (hparts ▸ hq) hq' with rfl | hlt
    · exact Nat.le_refl _
    · exact Nat.le_of_lt hlt
  | ok d =>
    rw [hd] at hread
    obtain ⟨hsound, hgathers⟩ := hread
    cases hmissing : missing? secs with
    | some kind => exact ⟨_, .missing hsound hmissing⟩
    | none =>
      obtain ⟨rules, p, hp⟩ := hgathers.exists_describes hmissing
      by_cases haccepted : p.mode = .strict → redefined [] rules = [] ∧ p.findings = []
      · exact ⟨_, .accepted hsound hgathers hp haccepted⟩
      · obtain ⟨hmode, hnot⟩ := Classical.not_imp.mp haccepted
        cases hr : redefined [] rules with
        | cons r others => exact ⟨_, .repeatedRule hsound hgathers hp hmode hr⟩
        | nil =>
          obtain ⟨f, others, hf⟩ := List.exists_cons_of_ne_nil fun hnil ↦ hnot ⟨hr, hnil⟩
          exact ⟨_, .finding hsound hgathers hp hmode hr hf⟩

/-- The verdict on a file is what becomes of it. -/
theorem Verdict.programOf_eq (hasc : InOrder secs) (h : Verdict secs x) : programOf secs = x := by
  cases h with
  | faulty hp hfault hfirst =>
    rw [programOf, ofSections_eq_error hasc hp hfault hfirst]
    rfl
  | missing hsound hkind =>
    obtain ⟨d, hd, hgathers⟩ := exists_ofSections_of_sound hasc hsound
    rw [programOf, hd, ok_bind, hgathers.program_eq_error hkind]
    rfl
  | repeatedRule hsound hd hp hmode hr =>
    rw [programOf, ofSections_eq_ok hasc hsound hd, ok_bind, hp.program_eq_error hmode hr]
    rfl
  | finding hsound hd hp hmode hr hf =>
    rw [programOf, ofSections_eq_ok hasc hsound hd, ok_bind, hp.program_eq_ok fun _ ↦ hr, ok_bind]
    simp only [Program.check, hmode, hf]
    rfl
  | accepted hsound hd hp hstrict =>
    rw [programOf, ofSections_eq_ok hasc hsound hd, ok_bind,
      hp.program_eq_ok fun h ↦ (hstrict h).1, ok_bind]
    simp only [check_eq_ok fun h ↦ (hstrict h).2]
    rw [List.map_map]
    rfl

/-- What becomes of a file of the right form is decided by the first of its parts that is at fault,
then by the first section that is missing, then, if it is strict, by the first rule that is defined
again and the first finding; otherwise it is accepted as the program that it describes. The parts
are those of the sections that the tokens of the file show, and an error has the place of its part
and the message of its fault (`Fault.message`). -/
theorem parse_eq_iff_verdict {source : String} {tokens : List (Token RuleName)}
    (h : HasTokens (Text.trim source.toList) tokens) :
    ∃ t parts stop secs, tokens = [t] ∧ t.inner = parts ++ [stop] ∧
      parts.mapM Token.section? = some secs ∧ ∀ x, parse source = x ↔ Verdict secs x := by
  obtain ⟨next, hd⟩ := h
  obtain ⟨hnone, hsome⟩ := Production.derives_program (Text.trim source.toList)
  cases ho : Grammar.file.outcome (.ofText (Text.trim source.toList)) with
  | none => cases hd.unique (hnone ho)
  | some r =>
    obtain ⟨secs, last⟩ := r
    obtain ⟨t, parts, stop, hd', hinner, hparts⟩ := hsome secs last ho
    obtain ⟨rfl, -⟩ := Prod.mk.inj (Option.some.inj (hd.unique hd'))
    have hasc : InOrder secs := (ascends_file _ _ _ ho).ascending
    have hparse : parse source = programOf secs := by
      rw [parse, sections, (Peg.read_eq_ok_iff rfl).mpr ⟨last, ho⟩]
      rfl
    refine ⟨t, parts, stop, secs, rfl, hinner, hparts, fun x ↦ ?_⟩
    rw [hparse]
    constructor
    · rintro rfl
      obtain ⟨x, hx⟩ := exists_verdict hasc
      rwa [hx.programOf_eq hasc]
    · exact Verdict.programOf_eq hasc

/-- A file without a name and without rules is refused for neither, as a section in it is repeated;
that the number in this section is too large is not noticed. -/
theorem parse_eq_iff_verdict_states :
    let source := "states: 1\nstates: 18446744073709551616"
    ∃ tokens, HasTokens (Text.trim source.toList) tokens ∧ ∃ t parts stop secs, tokens = [t] ∧
      t.inner = parts ++ [stop] ∧ parts.mapM Token.section? = some secs ∧
        Verdict secs (.error (.faulty (.repeatedSection .states) ⟨10, 38⟩)) := by
  intro source
  have hparse : parse source = .error (.faulty (.repeatedSection .states) ⟨10, 38⟩) := by decide
  obtain ⟨-, hsome⟩ := Production.derives_program (Text.trim source.toList)
  have hsecs : sections (Text.trim source.toList) =
      .ok [⟨.states ⟨"1".toList, ⟨8, 9⟩⟩, ⟨0, 9⟩⟩,
        ⟨.states ⟨"18446744073709551616".toList, ⟨18, 38⟩⟩, ⟨10, 38⟩⟩] := by decide
  obtain ⟨last, ho⟩ := (Peg.read_eq_ok_iff rfl).mp (eq_ok_of_mapError_eq_ok hsecs)
  obtain ⟨t, parts, stop, hd, -, -⟩ := hsome _ last ho
  have htokens : HasTokens (Text.trim source.toList) [t] := ⟨last, hd⟩
  obtain ⟨t', parts', stop', secs, htree, hinner, hsections, hverdict⟩ :=
    parse_eq_iff_verdict htokens
  exact ⟨[t], htokens, t', parts', stop', secs, htree, hinner, hsections,
    (hverdict _).mp hparse⟩

end TapeMachine.Definition
