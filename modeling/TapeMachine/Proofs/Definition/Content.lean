import TapeMachine.Definition.Written
import TapeMachine.Proofs.SortedMap

/-!
# Contents of drafts

What the sections of a file say, apart from the places where it is written. A draft holds one
statement of a kind at most, and a file with one section of each kind makes a draft that holds just
what its sections say.
-/

namespace TapeMachine.Definition

variable {ε α β : Type}

theorem ok_bind (a : α) (f : α → Except Error β) : ((Except.ok a : Except Error α) >>= f) = f a :=
  rfl

/-- What is accepted in two steps is accepted in each. -/
theorem exists_of_bind_eq_ok {x : Except ε α} {f : α → Except ε β} {b : β}
    (h : (x >>= f) = .ok b) : ∃ a, x = .ok a ∧ f a = .ok b := by
  cases x with
  | error e => cases h
  | ok a => exact ⟨a, rfl, h⟩

/-- What is accepted with another value is accepted. -/
theorem exists_of_map_eq_ok {x : Except ε α} {f : α → β} {b : β} (h : f <$> x = .ok b) :
    ∃ a, x = .ok a ∧ f a = b := by
  cases x with
  | error e => cases h
  | ok a => exact ⟨a, rfl, Except.ok.inj h⟩

/-- What is accepted whatever the errors are called is accepted. -/
theorem eq_ok_of_mapError_eq_ok {x : Except ε α} {f : ε → Error} {a : α}
    (h : x.mapError f = .ok a) : x = .ok a := by
  cases x with
  | error e => cases h
  | ok b =>
    obtain rfl := Except.ok.inj h
    rfl

/-- What is accepted in a list was accepted for one of its members. -/
theorem mem_of_mapM_eq_ok {f : α → Except ε β} {as : List α} {bs : List β} {b : β}
    (h : as.mapM f = .ok bs) (hb : b ∈ bs) : ∃ a ∈ as, f a = .ok b := by
  induction as generalizing bs with
  | nil =>
    obtain rfl := Except.ok.inj h
    cases hb
  | cons a as ih =>
    rw [List.mapM_cons] at h
    obtain ⟨c, hc, h⟩ := exists_of_bind_eq_ok h
    obtain ⟨cs, hcs, h⟩ := exists_of_bind_eq_ok h
    obtain rfl := Except.ok.inj h
    rcases List.mem_cons.mp hb with rfl | hb
    · exact ⟨a, List.mem_cons_self, hc⟩
    · obtain ⟨a', hmem, ha'⟩ := ih hcs hb
      exact ⟨a', List.mem_cons_of_mem _ hmem, ha'⟩

/-- What is accepted of a list is accepted of its parts. -/
theorem exists_of_mapM_append_eq_ok {f : α → Except ε β} {as bs : List α} {cs : List β}
    (h : (as ++ bs).mapM f = .ok cs) :
    ∃ us vs, as.mapM f = .ok us ∧ bs.mapM f = .ok vs ∧ cs = us ++ vs := by
  rw [List.mapM_append] at h
  obtain ⟨us, hus, h⟩ := exists_of_bind_eq_ok h
  obtain ⟨vs, hvs, h⟩ := exists_of_bind_eq_ok h
  exact ⟨us, vs, hus, hvs, (Except.ok.inj h).symm⟩

/-- What is accepted for a member of a list is accepted in the list. -/
theorem mem_of_mapM_eq_ok_of_mem {f : α → Except ε β} {as : List α} {bs : List β} {a : α} {b : β}
    (h : as.mapM f = .ok bs) (ha : a ∈ as) (hb : f a = .ok b) : b ∈ bs := by
  obtain ⟨front, back, rfl⟩ := List.append_of_mem ha
  obtain ⟨us, vs, -, hvs, rfl⟩ := exists_of_mapM_append_eq_ok h
  rw [List.mapM_cons] at hvs
  obtain ⟨b', hb', hvs⟩ := exists_of_bind_eq_ok hvs
  obtain ⟨vs', -, hvs⟩ := exists_of_bind_eq_ok hvs
  obtain rfl := Except.ok.inj hvs
  obtain rfl := Except.ok.inj (hb.symm.trans hb')
  exact List.mem_append_right us List.mem_cons_self

/-- What a section says, or why it says nothing. -/
def Section.statement : Section → Except Error Statement
  | .name text => .ok (.name (String.ofList (Text.trim text)))
  | .mode m => .ok (.mode m)
  | .states count => .states <$> readCount count
  | .start state => .start <$> readState state
  | .alphabet symbols => .alphabet <$> symbols.mapM readSymbol
  | .transitions rules =>
    (fun rs : List (Located Rule) ↦ .transitions (rs.map Located.value)) <$> rules.mapM readRule
  | .runs rs => .runs <$> rs.mapM readRun

namespace Draft

/-- The statement of a kind that a draft holds. -/
def content (d : Draft) : SectionKind → Option Statement
  | .name => d.name.map .name
  | .mode => d.mode.map .mode
  | .states => d.states.map .states
  | .start => d.start.map .start
  | .alphabet => d.alphabet.map .alphabet
  | .transitions => d.rules.map fun rs ↦ .transitions (rs.map Located.value)
  | .runs => d.runs.map .runs

/-- A kind of section has been there exactly if the draft holds a statement of that kind. -/
theorem has_eq_isSome_content (d : Draft) (k : SectionKind) : d.has k = (d.content k).isSome := by
  cases k <;> simp [has, content]

/-- The draft says in addition what it has been told. -/
def Gains (d d' : Draft) (s : Statement) : Prop :=
  ∀ k, d'.content k = if k = s.kind then some s else d.content k

/-- The kind of a statement is the kind of the section that makes it. -/
theorem kind_of_statement {s : Section} {st : Statement} (h : s.statement = .ok st) :
    st.kind = s.kind := by
  cases s with
  | name text =>
    cases h
    rfl
  | mode m =>
    cases h
    rfl
  | _ =>
    obtain ⟨v, -, rfl⟩ := exists_of_map_eq_ok h
    rfl

/-- A draft gains what a section says, or is refused as the section is. -/
theorem say_eq (d : Draft) (s : Section) :
    match s.statement with
    | .ok st => ∃ d', d.say s = .ok d' ∧ d.Gains d' st
    | .error e => d.say s = .error e := by
  cases s <;> simp only [Section.statement, say]
  case name text => exact ⟨_, rfl, fun k ↦ by cases k <;> rfl⟩
  case mode m => exact ⟨_, rfl, fun k ↦ by cases k <;> rfl⟩
  case states count =>
    cases readCount count with
    | error e => rfl
    | ok n => exact ⟨_, rfl, fun k ↦ by cases k <;> rfl⟩
  case start state =>
    cases readState state with
    | error e => rfl
    | ok q => exact ⟨_, rfl, fun k ↦ by cases k <;> rfl⟩
  case alphabet symbols =>
    cases symbols.mapM readSymbol with
    | error e => rfl
    | ok as => exact ⟨_, rfl, fun k ↦ by cases k <;> rfl⟩
  case transitions rules =>
    cases rules.mapM readRule with
    | error e => rfl
    | ok rs => exact ⟨_, rfl, fun k ↦ by cases k <;> rfl⟩
  case runs rs =>
    cases rs.mapM readRun with
    | error e => rfl
    | ok rs => exact ⟨_, rfl, fun k ↦ by cases k <;> rfl⟩

/-- A section of a new kind is added. -/
theorem add_eq_ok {d : Draft} {s : Located Section} {st : Statement}
    (h : s.value.statement = .ok st) (hd : d.content st.kind = none) :
    ∃ d', d.add s = .ok d' ∧ d.Gains d' st := by
  have hsay := say_eq d s.value
  rw [h] at hsay
  have hhas : d.has s.value.kind = false := by
    rw [← kind_of_statement h, has_eq_isSome_content, hd, Option.isSome_none]
  rw [add, hhas]
  exact hsay

/-- A section that is added says what the draft gains. -/
theorem gains_of_add {d d' : Draft} {s : Located Section} (h : d.add s = .ok d') :
    ∃ st, s.value.statement = .ok st ∧ d.Gains d' st := by
  rw [add] at h
  split at h
  · cases h
  · have hsay := say_eq d s.value
    cases hst : s.value.statement with
    | error e =>
      rw [hst] at hsay
      rw [hsay] at h
      cases h
    | ok st =>
      rw [hst] at hsay
      obtain ⟨d'', hd, hgains⟩ := hsay
      obtain rfl := Except.ok.inj (hd.symm.trans h)
      exact ⟨st, rfl, hgains⟩

/-- The sections of different kinds make a draft that holds what they say, and nothing else is
changed. -/
theorem foldlM_add_eq_ok {secs : List (Located Section)} {sts : List Statement} {d : Draft}
    (h : secs.map (fun s ↦ s.value.statement) = sts.map .ok)
    (hkinds : (sts.map Statement.kind).Nodup) (hd : ∀ st ∈ sts, d.content st.kind = none) :
    ∃ d', secs.foldlM add d = .ok d' ∧ (∀ st ∈ sts, d'.content st.kind = some st) ∧
      ∀ k, k ∉ sts.map Statement.kind → d'.content k = d.content k := by
  induction sts generalizing secs d with
  | nil =>
    obtain rfl := List.map_eq_nil_iff.mp h
    exact ⟨d, rfl, by simp, fun _ _ ↦ rfl⟩
  | cons st sts ih =>
    cases secs with
    | nil => cases h
    | cons s secs =>
      obtain ⟨hs, hsecs⟩ := List.cons.inj h
      obtain ⟨hnot, hnodup⟩ := List.nodup_cons.mp hkinds
      obtain ⟨d₁, hadd, hgains⟩ := add_eq_ok hs (hd st List.mem_cons_self)
      have hnone : ∀ st' ∈ sts, d₁.content st'.kind = none := by
        intro st' hmem
        have hne : st'.kind ≠ st.kind := by
          intro heq
          exact hnot (heq ▸ List.mem_map_of_mem hmem)
        rw [hgains, if_neg hne]
        exact hd st' (List.mem_cons_of_mem _ hmem)
      obtain ⟨d', hfold, hheld, hother⟩ := ih hsecs hnodup hnone
      refine ⟨d', ?_, ?_, ?_⟩
      · rw [List.foldlM_cons, hadd]
        exact hfold
      · intro st' hmem
        rcases List.mem_cons.mp hmem with rfl | hmem
        · rw [hother _ hnot, hgains, if_pos rfl]
        · exact hheld st' hmem
      · intro k hk
        rw [List.map_cons, List.mem_cons, not_or] at hk
        rw [hother k hk.2, hgains, if_neg hk.1]

/-- What a draft of sections holds was held before or is what one of them says. -/
theorem content_of_foldlM_add {secs : List (Located Section)} {d d' : Draft} {k : SectionKind}
    {st : Statement} (h : secs.foldlM add d = .ok d') (hst : d'.content k = some st) :
    d.content k = some st ∨ ∃ s ∈ secs, s.value.statement = .ok st := by
  induction secs generalizing d with
  | nil =>
    obtain rfl := Except.ok.inj h
    exact .inl hst
  | cons s secs ih =>
    rw [List.foldlM_cons] at h
    cases hadd : d.add s with
    | error e =>
      rw [hadd] at h
      cases h
    | ok d₁ =>
      rw [hadd] at h
      obtain ⟨st', hs, hgains⟩ := gains_of_add hadd
      rcases ih h with hheld | ⟨s', hmem, hs'⟩
      · rw [hgains] at hheld
        split at hheld
        · obtain rfl := Option.some.inj hheld
          exact .inr ⟨s, List.mem_cons_self, hs⟩
        · exact .inl hheld
      · exact .inr ⟨s', List.mem_cons_of_mem _ hmem, hs'⟩

end Draft

/-! ### Rules that are defined again -/

/-- The rules of a list whose trigger is an earlier one, or that of a rule before them. -/
def redefined (earlier : List Trigger) : List (Located Rule) → List (Located Rule)
  | [] => []
  | r :: rules =>
    let others := redefined (r.value.trigger :: earlier) rules
    if r.value.trigger ∈ earlier then r :: others else others

/-- The machine has rules for these triggers, and for no others. -/
def Defines (m : Machine) (triggers : List Trigger) : Prop :=
  ∀ r : Rule, (m.table.replaced r).isSome = true ↔ r.trigger ∈ triggers

variable {m : Machine} {earlier again : List Trigger} {mode : Mode} {r : Located Rule}
  {rules others : List (Located Rule)}

/-- A machine without rules has none for any trigger. -/
theorem defines_blank (n : Nat) (q : State) (alphabet : SortedSet Symbol) :
    Defines ⟨n, q, alphabet, SortedMap.empty⟩ [] := by
  intro r
  simp [Table.replaced]

theorem Defines.define (h : Defines m earlier) (r : Rule) :
    Defines (m.define r) (r.trigger :: earlier) := by
  intro r'
  simp only [Table.replaced, Machine.define, Table.define, List.mem_cons]
  by_cases hr : r.trigger = r'.trigger
  · simp [hr]
  · rw [SortedMap.find?_insert_of_ne _ _ hr, or_iff_right (Ne.symm hr)]
    exact h r'

theorem Defines.defineRule_new (h : Defines m earlier) (hr : r.value.trigger ∉ earlier) :
    defineRule mode (m, again) r = .ok (m.define r.value, again) := by
  rw [← h, Option.not_isSome_iff_eq_none] at hr
  simp only [defineRule, hr]

theorem Defines.defineRule_normal (h : Defines m earlier) (hr : r.value.trigger ∈ earlier) :
    defineRule .normal (m, again) r = .ok (m.define r.value, again ++ [r.value.trigger]) := by
  obtain ⟨t, ht⟩ := Option.isSome_iff_exists.mp ((h r.value).mpr hr)
  simp only [defineRule, ht]

theorem Defines.defineRule_strict (h : Defines m earlier) (hr : r.value.trigger ∈ earlier) :
    defineRule .strict (m, again) r =
      .error (.faulty (.repeatedRule r.value.trigger) r.span) := by
  obtain ⟨t, ht⟩ := Option.isSome_iff_exists.mp ((h r.value).mpr hr)
  simp only [defineRule, ht]

/-- A strict file is refused for the first rule that is defined again. -/
theorem foldlM_defineRule_error (h : Defines m earlier)
    (hr : redefined earlier rules = r :: others) :
    rules.foldlM (defineRule .strict) (m, again) =
      .error (.faulty (.repeatedRule r.value.trigger) r.span) := by
  induction rules generalizing m earlier with
  | nil => cases hr
  | cons x rules ih =>
    rw [redefined] at hr
    rw [List.foldlM_cons]
    by_cases hx : x.value.trigger ∈ earlier
    · rw [if_pos hx] at hr
      obtain ⟨rfl, -⟩ := List.cons.inj hr
      rw [h.defineRule_strict hx]
      rfl
    · rw [if_neg hx] at hr
      rw [h.defineRule_new hx]
      exact ih (h.define x.value) hr

/-- The rules are defined one after another, unless the file is strict and one is defined again. -/
theorem foldlM_defineRule_ok (h : Defines m earlier)
    (hmode : mode = .strict → redefined earlier rules = []) :
    rules.foldlM (defineRule mode) (m, again) =
      .ok ({ m with table := (rules.map Located.value).foldl Table.define m.table },
        again ++ (redefined earlier rules).map fun r ↦ r.value.trigger) := by
  induction rules generalizing m earlier again with
  | nil => simp [redefined, pure, Except.pure]
  | cons x rules ih =>
    rw [redefined] at hmode ⊢
    rw [List.foldlM_cons]
    by_cases hx : x.value.trigger ∈ earlier
    · rw [if_pos hx] at hmode ⊢
      cases mode with
      | strict => cases hmode rfl
      | normal =>
        rw [h.defineRule_normal hx, ok_bind, ih (h.define x.value) nofun, List.append_assoc]
        rfl
    · rw [if_neg hx] at hmode ⊢
      rw [h.defineRule_new hx, ok_bind, ih (h.define x.value) hmode]
      rfl

/-! ### Programs of drafts -/

/-- The table of rules, of which the last for a trigger counts. -/
def tableOf (rules : List Rule) : Table := rules.foldl Table.define SortedMap.empty

/-- The program of a draft with a name, a number of states and rules. -/
def Draft.described (d : Draft) (name : String) (n : Nat) (rules : List (Located Rule)) : Program :=
  ⟨name, d.mode.getD .normal,
    ⟨n, d.start.getD ⟨0⟩, SortedSet.ofList (alphabetOf d.alphabet rules),
      tableOf (rules.map Located.value)⟩, d.runs.getD []⟩

private theorem foldl_addSymbol (symbols : List Symbol) (m : Machine) :
    symbols.foldl Machine.addSymbol m =
      { m with alphabet := symbols.foldl SortedSet.add m.alphabet } := by
  induction symbols generalizing m with
  | nil => rfl
  | cons s symbols ih => rw [List.foldl_cons, ih]; rfl

/-- A machine without rules has the symbols that are added to it. -/
theorem foldl_addSymbol_blank (symbols : List Symbol) (n : Nat) (q : State) :
    symbols.foldl Machine.addSymbol (Machine.blank n q) =
      ⟨n, q, SortedSet.ofList symbols, SortedMap.empty⟩ :=
  foldl_addSymbol symbols _

/-- The program of a draft with the parts that must be there, up to the definition of its rules. -/
theorem Draft.program_eq {d : Draft} {name : String} {n : Nat} {rules : List (Located Rule)}
    (hname : d.name = some name) (hstates : d.states = some n) (hrules : d.rules = some rules) :
    d.program = (do
      let (machine, again) ← rules.foldlM (defineRule (d.mode.getD .normal))
        (⟨n, d.start.getD ⟨0⟩, SortedSet.ofList (alphabetOf d.alphabet rules), SortedMap.empty⟩, [])
      return (⟨name, d.mode.getD .normal, machine, d.runs.getD []⟩, again)) := by
  simp only [Draft.program, hname, hstates, hrules, required, ok_bind, foldl_addSymbol_blank]

/-- A draft with the parts that must be there describes its program; a strict one may be refused
instead. -/
theorem Draft.program_cases {d : Draft} {name : String} {n : Nat} {rules : List (Located Rule)}
    (hname : d.name = some name) (hstates : d.states = some n) (hrules : d.rules = some rules) :
    (∃ again, d.program = .ok (d.described name n rules, again)) ∨
      d.mode.getD .normal = .strict ∧ ∃ e, d.program = .error e := by
  rw [Draft.program_eq hname hstates hrules]
  by_cases hmode : d.mode.getD .normal = .strict → redefined [] rules = []
  · rw [foldlM_defineRule_ok (defines_blank _ _ _) hmode]
    exact .inl ⟨_, rfl⟩
  · obtain ⟨hmode, hne⟩ := Classical.not_imp.mp hmode
    obtain ⟨r, others, hr⟩ := List.exists_cons_of_ne_nil hne
    rw [hmode, foldlM_defineRule_error (defines_blank _ _ _) hr]
    exact .inr ⟨rfl, _, rfl⟩

/-- The program of a draft is the one that it describes. -/
theorem Draft.eq_described {d : Draft} {p : Program} {again : List Trigger}
    (h : d.program = .ok (p, again)) :
    ∃ name n rules, d.name = some name ∧ d.states = some n ∧ d.rules = some rules ∧
      p = d.described name n rules := by
  cases hname : d.name with
  | none =>
    rw [Draft.program, hname] at h
    cases h
  | some name =>
    cases hstates : d.states with
    | none =>
      rw [Draft.program, hname, hstates] at h
      cases h
    | some n =>
      cases hrules : d.rules with
      | none =>
        rw [Draft.program, hname, hstates, hrules] at h
        cases h
      | some rules =>
        refine ⟨name, n, rules, rfl, rfl, rfl, ?_⟩
        rcases Draft.program_cases hname hstates hrules with ⟨again', hp⟩ | ⟨-, e, hp⟩
        · exact (Prod.mk.inj (Except.ok.inj (h.symm.trans hp))).1
        · cases h.symm.trans hp

/-- Sections are accepted if their draft and its program are, and the program passes its check. -/
theorem programOf_eq_ok_iff {secs : List (Located Section)} {p : Program}
    {warnings : List Warning} :
    programOf secs = .ok (p, warnings) ↔ ∃ d again findings, Draft.ofSections secs = .ok d ∧
      d.program = .ok (p, again) ∧ p.check = .ok findings ∧
        warnings = again.map .redefined ++ findings.map .finding := by
  constructor
  · intro h
    obtain ⟨d, hd, h⟩ := exists_of_bind_eq_ok h
    obtain ⟨⟨p', again⟩, hp, h⟩ := exists_of_bind_eq_ok h
    obtain ⟨findings, hc, h⟩ := exists_of_bind_eq_ok h
    obtain ⟨rfl, rfl⟩ := Prod.mk.inj (Except.ok.inj h)
    exact ⟨d, again, findings, hd, hp, eq_ok_of_mapError_eq_ok hc, rfl⟩
  · rintro ⟨d, again, findings, hd, hp, hc, rfl⟩
    rw [programOf, hd, ok_bind, hp, ok_bind]
    simp only [hc]
    rfl

/-- A file is accepted if its text has sections that are. -/
theorem parse_eq_ok_iff {source : String} {r : Program × List Warning} :
    parse source = .ok r ↔
      ∃ secs, sections (Text.trim source.toList) = .ok secs ∧ programOf secs = .ok r := by
  constructor
  · intro h
    exact exists_of_bind_eq_ok h
  · rintro ⟨secs, hs, h⟩
    rw [parse, hs]
    exact h

end TapeMachine.Definition
