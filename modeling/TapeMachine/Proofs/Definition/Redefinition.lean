import Mathlib.Data.List.Nodup
import TapeMachine.Proofs.Definition.DeletedLine
import TapeMachine.Proofs.Definition.Order
import TapeMachine.Proofs.Definition.Verdict

/-!
# Rules that are defined again

In a normal file a rule that is defined again has no effect on the table of the program. So the line
of the rule can be deleted, and the program stays the same, but for the symbol that the rule writes:
without an alphabet section it stays in the alphabet (`parse_withoutLine`).
-/

namespace TapeMachine.Definition

variable {d d' : Draft} {secs before after : List (Located Section)} {s : Located Section}
  {front back : List (Located RuleText)} {x : Located RuleText} {r r' : Located Rule}
  {earlier later : List (Located Rule)} {span : Span}

/-! ### Programs -/

/-- A rule leaves no trace in the table if a later one has its trigger. -/
theorem tableOf_of_again (h : r' ∈ later) (ht : r'.value.trigger = r.value.trigger) :
    tableOf ((earlier ++ r :: later).map Located.value) =
      tableOf ((earlier ++ later).map Located.value) := by
  refine Table.ext_lookup fun q s ↦ ?_
  rw [tableOf, tableOf, lookup_foldl_define, lookup_foldl_define]
  congr 2
  rw [List.reverse_append, List.reverse_cons, List.reverse_append, List.find?_append,
    List.find?_append, List.find?_append]
  by_cases hr : r.value.trigger = ⟨q, s⟩
  · have hfound : (later.reverse.find? fun r ↦ r.value.trigger = ⟨q, s⟩).isSome = true :=
      List.find?_isSome.mpr ⟨r', List.mem_reverse.mpr h, by simp [ht, hr]⟩
    obtain ⟨w, hw⟩ := Option.isSome_iff_exists.mp hfound
    rw [hw]
    rfl
  · simp [hr]

/-- It leaves the symbol that it writes in an alphabet that is not declared. -/
theorem alphabetOf_of_again (h : r' ∈ later) (ht : r'.value.trigger = r.value.trigger) :
    SortedSet.ofList (alphabetOf none (earlier ++ r :: later)) =
      (SortedSet.ofList (alphabetOf none (earlier ++ later))).add r.value.transition.write := by
  refine SortedSet.ext_contains fun s ↦ ?_
  rw [SortedSet.contains_add, SortedSet.contains_ofList, SortedSet.contains_ofList]
  have hread : r.value.trigger.symbol ∈ alphabetOf none later :=
    List.mem_flatMap.mpr ⟨r', h, by simp [ht]⟩
  have happend (as bs : List (Located Rule)) :
      alphabetOf none (as ++ bs) = alphabetOf none as ++ alphabetOf none bs := List.flatMap_append
  have hcons : alphabetOf none (r :: later) =
      [r.value.trigger.symbol, r.value.transition.write] ++ alphabetOf none later := rfl
  rw [happend, happend, hcons]
  simp only [List.mem_append, List.mem_cons, List.not_mem_nil, or_false]
  constructor
  · rintro (hs | (rfl | rfl) | hs)
    · exact .inr (.inl hs)
    · exact .inr (.inr hread)
    · exact .inl rfl
    · exact .inr (.inr hs)
  · rintro (rfl | hs | hs)
    · exact .inr (.inl (.inr rfl))
    · exact .inl hs
    · exact .inr (.inr hs)

/-- Without a rule that is defined again a draft describes the same program, but for the symbol that
the rule writes. -/
theorem Draft.described_of_again (h : r' ∈ later) (ht : r'.value.trigger = r.value.trigger)
    (name : String) (n : Nat) :
    let p := d.described name n (earlier ++ later)
    d.described name n (earlier ++ r :: later) =
      if d.has .alphabet then p
      else { p with machine := p.machine.addSymbol r.value.transition.write } := by
  intro p
  rw [described, tableOf_of_again h ht]
  cases halphabet : d.alphabet with
  | some symbols =>
    rw [has, halphabet, Option.isSome_some, if_pos rfl]
    simp only [p, described, halphabet]
    rfl
  | none =>
    rw [has, halphabet, Option.isSome_none, if_neg Bool.false_ne_true, alphabetOf_of_again h ht]
    simp only [p, described, halphabet, Machine.addSymbol]

/-! ### Drafts -/

variable {rules rules' : List (Located Rule)}

namespace Draft

/-- The draft with other rules. -/
def withRules (d : Draft) (rules : List (Located Rule)) : Draft := { d with rules := some rules }

/-- A section that is no table says the same to a draft with other rules. -/
theorem say_withRules {sec : Section} (h : d.say sec = .ok d') (hk : sec.kind ≠ .transitions) :
    d'.rules = d.rules ∧ (d.withRules rules).say sec = .ok (d'.withRules rules) := by
  cases sec with
  | name | mode =>
    obtain rfl := Except.ok.inj h
    exact ⟨rfl, rfl⟩
  | transitions => exact absurd rfl hk
  | states | start | alphabet | runs =>
    obtain ⟨v, hv, h⟩ := exists_of_bind_eq_ok h
    obtain rfl := Except.ok.inj h
    refine ⟨rfl, ?_⟩
    rw [say, hv]
    rfl

/-- A section that is added to a draft with rules is added to the draft with other rules. -/
theorem add_withRules (h : d.add s = .ok d') (hd : d.rules = some rules) :
    d'.rules = some rules ∧ (d.withRules rules').add s = .ok (d'.withRules rules') := by
  rw [add] at h
  split at h
  · cases h
  · next hhas =>
    have hk : s.value.kind ≠ .transitions := by
      intro hk
      rw [hk, has, hd] at hhas
      exact hhas rfl
    have hother : (d.withRules rules').has s.value.kind = d.has s.value.kind := by
      generalize s.value.kind = k at hk ⊢
      cases k <;> first | rfl | exact absurd rfl hk
    obtain ⟨hrules, hsay⟩ := say_withRules h hk
    rw [add, hother, if_neg hhas]
    exact ⟨hrules.trans hd, hsay⟩

/-- So are further sections. -/
theorem foldlM_add_withRules (rules' : List (Located Rule)) (h : after.foldlM add d = .ok d')
    (hd : d.rules = some rules) : d'.rules = some rules ∧
    after.foldlM add (d.withRules rules') = .ok (d'.withRules rules') := by
  induction after generalizing d with
  | nil =>
    obtain rfl := Except.ok.inj h
    exact ⟨hd, rfl⟩
  | cons s after ih =>
    rw [List.foldlM_cons] at h
    obtain ⟨d₁, hadd, h⟩ := exists_of_bind_eq_ok h
    obtain ⟨hd₁, hadd'⟩ := add_withRules hadd hd
    obtain ⟨hd', hfold⟩ := ih h hd₁
    refine ⟨hd', ?_⟩
    rw [List.foldlM_cons, hadd']
    exact hfold

end Draft

/-- Without one of the rules of its table a file makes the same draft, without this rule. -/
theorem ofSections_without
    (h : Draft.ofSections (before ++ ⟨.transitions (front ++ x :: back), span⟩ :: after) = .ok d) :
    ∃ earlier r later, readRule x = .ok r ∧ back.mapM readRule = .ok later ∧
      d.rules = some (earlier ++ r :: later) ∧
      Draft.ofSections (before ++ ⟨.transitions (front ++ back), span⟩ :: after) =
        .ok (d.withRules (earlier ++ later)) := by
  rw [Draft.ofSections, List.foldlM_append] at h
  obtain ⟨d₀, hbefore, h⟩ := exists_of_bind_eq_ok h
  rw [List.foldlM_cons] at h
  obtain ⟨d₁, hadd, hafter⟩ := exists_of_bind_eq_ok h
  rw [Draft.add] at hadd
  split at hadd
  · cases hadd
  · next hhas =>
    obtain ⟨rules, hrules, hadd⟩ := exists_of_bind_eq_ok hadd
    obtain rfl := Except.ok.inj hadd
    obtain ⟨earlier, rest, hfront, hrest, rfl⟩ := exists_of_mapM_append_eq_ok hrules
    rw [List.mapM_cons] at hrest
    obtain ⟨r, hr, hrest⟩ := exists_of_bind_eq_ok hrest
    obtain ⟨later, hback, hrest⟩ := exists_of_bind_eq_ok hrest
    obtain rfl := Except.ok.inj hrest
    obtain ⟨hd, hfold⟩ := Draft.foldlM_add_withRules (earlier ++ later) hafter rfl
    refine ⟨earlier, r, later, hr, hback, hd, ?_⟩
    have hsay : d₀.add ⟨.transitions (front ++ back), span⟩ =
        .ok (d₀.withRules (earlier ++ later)) := by
      have hnew : ¬d₀.has .transitions = true := hhas
      refine (if_neg hnew).trans ?_
      rw [Draft.say, List.mapM_append, hfront, ok_bind, hback]
      rfl
    rw [Draft.ofSections, List.foldlM_append, hbefore, ok_bind, List.foldlM_cons, hsay]
    exact hfold

/-- A normal draft is a program with other rules as well. -/
theorem Draft.exists_program_withRules {p : Program} {again : List Trigger}
    (h : d.program = .ok (p, again)) (hmode : p.mode = .normal) (hrules : d.rules = some rules)
    (rules' : List (Located Rule)) : ∃ name n again', p = d.described name n rules ∧
      (d.withRules rules').program = .ok (d.described name n rules', again') := by
  obtain ⟨name, n, rules₀, hname, hstates, hrules₀, rfl⟩ := Draft.eq_described h
  obtain rfl : rules₀ = rules := Option.some.inj (hrules₀.symm.trans hrules)
  rcases Draft.program_cases (d := d.withRules rules') hname hstates rfl with
    ⟨again', hd⟩ | ⟨hstrict, -⟩
  · exact ⟨name, n, again', rfl, hd⟩
  · cases hmode.symm.trans hstrict

/-- A draft has said something of every kind of its sections, and of no other. -/
theorem Draft.has_iff_of_foldlM_add (h : secs.foldlM Draft.add d = .ok d') (k : SectionKind) :
    d'.has k = true ↔ d.has k = true ∨ ∃ s ∈ secs, s.value.kind = k := by
  induction secs generalizing d with
  | nil =>
    obtain rfl := Except.ok.inj h
    simp
  | cons s secs ih =>
    rw [List.foldlM_cons] at h
    obtain ⟨d₁, hadd, h⟩ := exists_of_bind_eq_ok h
    obtain ⟨st, hst, hgains⟩ := gains_of_add hadd
    have hfirst : d₁.has k = true ↔ d.has k = true ∨ s.value.kind = k := by
      rw [has_eq_isSome_content, has_eq_isSome_content, hgains, kind_of_statement hst]
      by_cases hk : k = s.value.kind
      · simp [hk]
      · simp [hk, Ne.symm hk]
    rw [ih h, hfirst, List.exists_mem_cons_iff, or_assoc]

/-- The sections of a draft are of different kinds. -/
theorem Draft.nodup_kinds (h : Draft.ofSections secs = .ok d) :
    (secs.map fun s ↦ s.value.kind).Nodup := by
  obtain ⟨sts, hsts, hnodup, -⟩ := exists_statements_of_foldlM_add h
  have hkinds : sts.map Statement.kind = secs.map fun s ↦ s.value.kind := by
    rw [← List.forall₂_eq_eq_eq, List.forall₂_map_left_iff, List.forall₂_map_right_iff]
    exact hsts.flip.imp fun _ _ ↦ kind_of_statement
  rwa [hkinds] at hnodup

/-- The rules of a draft stand in one section. -/
theorem exists_table_of_ofSections (h : Draft.ofSections secs = .ok d)
    (hx : ruleTextsOf secs = front ++ x :: back) : ∃ before span after,
      secs = before ++ ⟨.transitions (front ++ x :: back), span⟩ :: after := by
  have hmem : x ∈ ruleTextsOf secs := hx ▸ List.mem_append_right front List.mem_cons_self
  obtain ⟨⟨sec, span⟩, hs, hsec⟩ := List.mem_flatMap.mp hmem
  obtain ⟨before, after, rfl⟩ := List.append_of_mem hs
  cases sec with
  | transitions rules =>
    have hnodup := Draft.nodup_kinds h
    rw [List.map_append, List.map_cons, List.nodup_middle, List.nodup_cons,
      ← List.map_append] at hnodup
    have hnone {others : List (Located Section)} (hsub : others ⊆ before ++ after) :
        ruleTextsOf others = [] := by
      refine List.flatMap_eq_nil_iff.mpr fun s hs ↦ ?_
      have hk : s.value.kind ≠ .transitions :=
        fun hk ↦ hnodup.1 (List.mem_map.mpr ⟨s, hsub hs, hk⟩)
      generalize s.value = sec at hk ⊢
      cases sec <;> first | rfl | exact absurd rfl hk
    refine ⟨before, span, after, ?_⟩
    have hall : ruleTextsOf (before ++ ⟨.transitions rules, span⟩ :: after) =
        ruleTextsOf before ++ (rules ++ ruleTextsOf after) := by
      rw [ruleTextsOf, List.flatMap_append, List.flatMap_cons]
      rfl
    rw [← hx, hall, hnone (List.subset_append_left _ _), hnone (List.subset_append_right _ _)]
    simp
  | _ => cases hsec

/-! ### Files -/

/-- The rule that is read from the text is defined again: a rule that is written behind it has its
trigger. -/
structure DefinedAgain (secs : List (Located Section)) (x : Located RuleText) (r : Located Rule) :
    Prop where
  reads : readRule x = .ok r
  again : ∃ front back, ruleTextsOf secs = front ++ x :: back ∧
    ∃ y ∈ back, ∃ r', readRule y = .ok r' ∧ r'.value.trigger = r.value.trigger

/-- The file without the line of a rule, whose place is counted behind the blanks at the start. -/
def withoutLine (source : String) (x : Located RuleText) : String :=
  let blanks := source.toList.takeWhile Text.isBlank
  String.ofList (deleteLine source.toList (blanks.length + x.span.start))

/-- In a normal file that is accepted the line of a rule that is defined again can be deleted: the
file is accepted, and the program is the same if the alphabet is declared. Otherwise the alphabet
has lost the symbol that the rule writes, unless another rule reads or writes it. -/
theorem parse_withoutLine {source : String} {p : Program} {warnings : List Warning}
    (hp : parse source = .ok (p, warnings)) (hmode : p.mode = .normal)
    (hsecs : sections (Text.trim source.toList) = .ok secs) (hx : DefinedAgain secs x r) :
    ∃ p' warnings', parse (withoutLine source x) = .ok (p', warnings') ∧
      p = if ∃ s ∈ secs, s.value.kind = .alphabet then p'
        else { p' with machine := p'.machine.addSymbol r.value.transition.write } := by
  obtain ⟨hr, front, back, hrules, y, hy, r', hr', ht⟩ := hx
  obtain ⟨secs', hsecs', hprogram⟩ := parse_eq_ok_iff.mp hp
  obtain rfl : secs = secs' := Except.ok.inj (hsecs.symm.trans hsecs')
  obtain ⟨d, again, findings, hd, hdp, -, -⟩ := programOf_eq_ok_iff.mp hprogram
  have halphabet : d.has .alphabet = true ↔ ∃ s ∈ secs, s.value.kind = .alphabet :=
    (Draft.has_iff_of_foldlM_add hd .alphabet).trans (or_iff_right Bool.false_ne_true)
  obtain ⟨before, span, after, rfl⟩ := exists_table_of_ofSections hd hrules
  obtain ⟨earlier, r₀, later, hr₀, hlater, hdrules, hd'⟩ := ofSections_without hd
  obtain rfl : r = r₀ := Except.ok.inj (hr.symm.trans hr₀)
  have hagain : r' ∈ later := mem_of_mapM_eq_ok_of_mem hlater hy hr'
  -- The sections without the rule are a program.
  obtain ⟨name, n, again', rfl, hdp'⟩ :=
    Draft.exists_program_withRules hdp hmode hdrules (earlier ++ later)
  set p' := d.described name n (earlier ++ later)
  have hcheck : p'.check = .ok p'.findings :=
    check_eq_ok fun hstrict ↦ by cases hmode.symm.trans hstrict
  have hprogram' := programOf_eq_ok_iff.mpr ⟨_, again', p'.findings, hd', hdp', hcheck, rfl⟩
  -- And without the line of the rule the file has sections that say the same.
  obtain ⟨z, back, rfl⟩ := List.exists_cons_of_ne_nil (List.ne_nil_of_mem hy)
  obtain ⟨l, htext, hpos, secs', hsecs', hsame⟩ := exists_sections_deleteLine rfl hsecs
  have hsays := hsame.imp fun _ _ h ↦ h.saysAlike
  refine ⟨p', _, parse_eq_ok_iff.mpr ⟨secs', ?_, programOf_of_saysAlike hsays hprogram'⟩, ?_⟩
  · rw [withoutLine, String.toList_ofList, hpos, l.trim_deleteLine htext]
    exact hsecs'
  · rw [Draft.described_of_again hagain ht]
    exact if_congr halphabet rfl rfl

/-- A file with two rules for one trigger, behind an empty line. -/
def revised : String := "\nname:a\nstates:1\ntransitions:\n(0,a)->(0,x,R)\n(0,a)->(0,a,Y)"

/-- A rule for this trigger that stays in its state, as it is written from a place on. -/
def writtenAt (start : Nat) (write action : Char) : Located RuleText :=
  ⟨⟨⟨['0'], ⟨start + 1, start + 2⟩⟩, ⟨'a', ⟨start + 3, start + 4⟩⟩, ⟨['0'], ⟨start + 8, start + 9⟩⟩,
    ⟨write, ⟨start + 10, start + 11⟩⟩, ⟨action, ⟨start + 12, start + 13⟩⟩⟩, ⟨start, start + 14⟩⟩

/-- The sections of the file with two rules. -/
def sectionsOfRevised : List (Located Section) :=
  [⟨.name ['a'], ⟨0, 6⟩⟩, ⟨.states ⟨['1'], ⟨14, 15⟩⟩, ⟨7, 15⟩⟩,
    ⟨.transitions [writtenAt 29 'x' 'R', writtenAt 44 'a' 'Y'], ⟨16, 58⟩⟩]

/-- The program without the first of the rules, which accepts at an `a`. -/
def acceptsAtA : Program where
  name := "a"
  mode := .normal
  machine := ((Machine.blank 1 ⟨0⟩).addSymbol ⟨'a', .refl true⟩).define
    ⟨⟨⟨0⟩, ⟨'a', .refl true⟩⟩, ⟨⟨0⟩, ⟨'a', .refl true⟩, .accept⟩⟩
  runs := []

/-- The program of the file with two rules. -/
def programOfRevised : Program :=
  { acceptsAtA with machine := acceptsAtA.machine.addSymbol ⟨'x', .refl true⟩ }

theorem sections_revised : sections (Text.trim revised.toList) = .ok sectionsOfRevised := rfl

theorem parse_revised :
    parse revised = .ok (programOfRevised, [.redefined ⟨⟨0⟩, ⟨'a', .refl true⟩⟩]) := by
  decide +kernel

theorem definedAgain_revised : DefinedAgain sectionsOfRevised (writtenAt 29 'x' 'R')
    ⟨⟨⟨⟨0⟩, ⟨'a', .refl true⟩⟩, ⟨⟨0⟩, ⟨'x', .refl true⟩, .moveRight⟩⟩, ⟨29, 43⟩⟩ where
  reads := by decide
  again := ⟨[], [writtenAt 44 'a' 'Y'], rfl, _, List.mem_cons_self,
    ⟨⟨⟨⟨0⟩, ⟨'a', .refl true⟩⟩, ⟨⟨0⟩, ⟨'a', .refl true⟩, .accept⟩⟩, ⟨44, 58⟩⟩, by decide, rfl⟩

/-- Of the two rules the second is left. -/
theorem withoutLine_revised : withoutLine revised (writtenAt 29 'x' 'R') =
    "\nname:a\nstates:1\ntransitions:\n(0,a)->(0,a,Y)" := by
  decide

/-- Without the line of the first of two rules the alphabet has lost the symbol that it writes. -/
theorem parse_withoutLine_revised :
    parse revised = .ok (programOfRevised, [.redefined ⟨⟨0⟩, ⟨'a', .refl true⟩⟩]) ∧
      ∃ p' warnings', parse "\nname:a\nstates:1\ntransitions:\n(0,a)->(0,a,Y)" =
        .ok (p', warnings') ∧
          programOfRevised = { p' with machine := p'.machine.addSymbol ⟨'x', .refl true⟩ } := by
  obtain ⟨p', warnings', hparse, heq⟩ :=
    parse_withoutLine parse_revised rfl sections_revised definedAgain_revised
  rw [withoutLine_revised] at hparse
  rw [if_neg (by decide)] at heq
  exact ⟨parse_revised, p', warnings', hparse, heq⟩

/-- The program does not always stay the same without the line of a rule that is defined again. -/
theorem not_parse_withoutLine_same : ¬∀ (source : String) (p : Program) (warnings : List Warning)
    (secs : List (Located Section)) (x : Located RuleText) (r : Located Rule),
    parse source = .ok (p, warnings) → p.mode = .normal →
    sections (Text.trim source.toList) = .ok secs → DefinedAgain secs x r →
      ∃ warnings', parse (withoutLine source x) = .ok (p, warnings') := by
  intro h
  obtain ⟨warnings', hsame⟩ :=
    h revised programOfRevised _ _ _ _ parse_revised rfl sections_revised definedAgain_revised
  have hparse : parse "\nname:a\nstates:1\ntransitions:\n(0,a)->(0,a,Y)" =
      .ok (acceptsAtA, []) := by
    decide
  rw [withoutLine_revised, hparse] at hsame
  have heq := (Prod.mk.inj (Except.ok.inj hsame)).1
  revert heq
  decide

end TapeMachine.Definition
