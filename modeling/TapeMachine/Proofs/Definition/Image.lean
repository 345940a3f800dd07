import TapeMachine.Proofs.Definition.RoundTrip
import TapeMachine.Proofs.Peg.Value

/-!
# Image of the reader

A program that has been read from a file, whatever the file, can be written, unless its name is
empty. So the programs in normal mode that can be read and have a name are just those that are read
from the files written for them (`parse_written`).
-/

namespace TapeMachine.Definition

open Peg (Yields)

variable {α β : Type} {e : Grammar.Expr α} {f : Grammar.Expr β} {V : α → Prop} {W : β → Prop}

/-! ### Values of the grammar -/

private theorem yields_after (s : String) (h : e.Yields V) : (Grammar.after s e).Yields V :=
  .right _ (.right _ h)

private theorem yields_before (h : e.Yields V) (s : String) : (Grammar.before e s).Yields V :=
  h.left _

private theorem yields_pair (h : e.Yields V) (h' : f.Yields W) :
    (Grammar.pair e f).Yields fun x ↦ V x.1 ∧ W x.2 :=
  h.seq (.right _ h')

private theorem yields_list (h : e.Yields V) :
    (Grammar.list e).Yields fun as ↦ ∀ a ∈ as, V a := by
  refine (h.seq (Yields.right Grammar.gap h).many).optional.map ?_
  rintro (_ | ⟨a, as⟩) hv
  · simp
  · obtain ⟨ha, has⟩ := hv (a, as) rfl
    simpa using ⟨ha, has⟩

private theorem yields_nameChars :
    (Peg.some ((Peg.without (.literal "//")).right (.satisfying fun c ↦ !Grammar.isBreak c)) :
      Grammar.Expr (List Char)).Yields fun n ↦ ¬"//".toList <:+: n := by
  intro c n last hn
  -- Where the slashes of a comment stand the look-ahead would have stopped the reader.
  have hstretch := Peg.forall_suffix_of_outcome_some (Q := fun text ↦ ¬"//".toList <+: text) rfl
    (fun c a next ha ↦ ?_) hn
  · rintro ⟨u, v, rfl⟩
    exact hstretch ("//".toList ++ v) (by simp) ⟨u, by rw [List.append_assoc]⟩
      ⟨v ++ last.rest, by rw [List.append_assoc]⟩
  · rw [Peg.outcome_without_right] at ha
    split at ha
    · cases ha
    · next hno =>
      rw [Peg.isSome_outcome_literal, List.isPrefixOf_iff_prefix] at hno
      exact ⟨(Peg.passes_of_outcome_satisfying ha).2, hno⟩

private theorem yields_inLine : (Peg.satisfying fun c ↦ !Grammar.isBreak c :
    Grammar.Expr Char).Yields fun c ↦ c ≠ '\r' ∧ c ≠ '\n' := by
  refine (Yields.satisfying _).mono fun c hc ↦ ⟨?_, ?_⟩
  · rintro rfl
    cases hc
  · rintro rfl
    cases hc

/-- A name stands on one line and holds no comment. -/
theorem yields_text : Grammar.text.Yields fun t ↦
    (∀ c ∈ t.value, c ≠ '\r' ∧ c ≠ '\n') ∧ ¬"//".toList <:+: t.value := by
  have hline := (Yields.right (Peg.without (Peg.literal "//")) yields_inLine).some
  exact Yields.rule (V := fun n ↦ (∀ c ∈ n, c ≠ '\r' ∧ c ≠ '\n') ∧ ¬"//".toList <:+: n)
    fun c n last hn ↦ ⟨(hline c n last hn).2, yields_nameChars c n last hn⟩

/-- A symbol is no quote. -/
theorem yields_symbol : Grammar.symbol.Yields fun c ↦ c.value ≠ '\'' := by
  have hchar : (Peg.satisfying fun c ↦ !(c = '\'' || Grammar.isBreak c) :
      Grammar.Expr Char).Yields fun c ↦ c ≠ '\'' := by
    refine (Yields.satisfying _).mono fun c hc ↦ ?_
    rintro rfl
    cases hc
  have hbare : (Peg.satisfying fun c ↦ !(Grammar.isMark c || Grammar.isBreak c) :
      Grammar.Expr Char).Yields fun c ↦ c ≠ '\'' := by
    refine (Yields.satisfying _).mono fun c hc ↦ ?_
    rintro rfl
    cases hc
  have hquoted : Grammar.quotedSymbol.Yields fun s ↦ s.value.value ≠ '\'' :=
    (Yields.right _ (hchar.rule.left _)).rule
  exact ((hquoted.map (W := fun c ↦ c ≠ '\'') fun _ h ↦ h).choice
    (hbare.rule.map fun _ h ↦ h)).rule

/-- A tape holds no double quote. -/
theorem yields_tape : Grammar.tape.Yields fun t ↦ ∀ c ∈ t.value, c ≠ '"' := by
  have hcell : (Peg.satisfying fun c ↦ !(c = '"' || Grammar.isBreak c) :
      Grammar.Expr Char).Yields fun c ↦ c ≠ '"' := by
    refine (Yields.satisfying _).mono fun c hc ↦ ?_
    rintro rfl
    cases hc
  exact (Yields.rule (.right _ (.left (.rule hcell.many) _))).map fun _ h ↦ h

/-! ### Sections -/

/-- What the grammar makes sure of in a section. -/
def Section.Proper : Section → Prop
  | .name text => (∀ c ∈ text, c ≠ '\r' ∧ c ≠ '\n') ∧ ¬"//".toList <:+: text
  | .mode _ | .states _ | .start _ => True
  | .alphabet symbols => symbols ≠ [] ∧ ∀ c ∈ symbols, c.value ≠ '\''
  | .transitions rules => ∀ r ∈ rules, r.value.symbol.value ≠ '\'' ∧ r.value.write.value ≠ '\''
  | .runs rs => ∀ r ∈ rs, ∀ c ∈ r.tape.value, c ≠ '"'

/-- A rule of the table reads and writes no quote. -/
theorem yields_transition : Grammar.transition.Yields fun r ↦
    r.value.symbol.value ≠ '\'' ∧ r.value.write.value ≠ '\'' := by
  refine Yields.rule (V := fun r : RuleText ↦ r.symbol.value ≠ '\'' ∧ r.write.value ≠ '\'')
    ((yields_after "(" <| yields_pair .trivial <| yields_after "," <| yields_pair yields_symbol <|
      yields_after ")" <| yields_after "->" <| yields_after "(" <| yields_pair .trivial <|
      yields_after "," <| yields_pair yields_symbol <| yields_after "," <|
      yields_before .trivial ")").map ?_)
  rintro ⟨state, symbol, next, write, action⟩ ⟨-, hs, -, hw, -⟩
  exact ⟨hs, hw⟩

/-- The tape of an input holds no double quote. -/
theorem yields_run : Grammar.run.Yields fun r ↦ ∀ c ∈ r.value.tape.value, c ≠ '"' := by
  refine Yields.rule (V := fun r : RunText ↦ ∀ c ∈ r.tape.value, c ≠ '"')
    ((yields_pair yields_tape (yields_after "@" .trivial)).map ?_)
  rintro ⟨tape, position⟩ ⟨ht, -⟩
  exact ht

/-- Every section is proper. -/
theorem yields_anySection : Grammar.anySection.Yields fun s ↦ s.value.Proper := by
  have hrule : ∀ {α : Type} {n : RuleName} {e : Grammar.Expr α} {V : α → Prop} {g : α → Section},
      e.Yields V → (∀ a, V a → (g a).Proper) →
      (Peg.rule n (e.map g)).Yields fun s ↦ s.value.Proper :=
    fun he hg ↦ Yields.rule (V := Section.Proper) (he.map hg)
  refine .choice ?_ <| .choice ?_ <| .choice ?_ <| .choice ?_ <| .choice ?_ <| .choice ?_ ?_
  · exact hrule (yields_after "name:" yields_text) fun _ h ↦ h
  · exact hrule .trivial fun _ _ ↦ trivial
  · exact hrule .trivial fun _ _ ↦ trivial
  · exact hrule .trivial fun _ _ ↦ trivial
  · refine hrule (yields_after "alphabet:" (yields_pair yields_symbol
      (yields_list (yields_after "," yields_symbol)))) ?_
    rintro ⟨first, others⟩ ⟨hfirst, hothers⟩
    exact ⟨List.cons_ne_nil _ _, by simpa using ⟨hfirst, hothers⟩⟩
  · have hline : ((Grammar.pair Grammar.breaks Grammar.transition).map Prod.snd).Yields fun r ↦
        r.value.symbol.value ≠ '\'' ∧ r.value.write.value ≠ '\'' :=
      (yields_pair .trivial yields_transition).map fun _ h ↦ h.2
    exact hrule (yields_after "transitions:" (yields_list hline)) fun _ h ↦ h
  · have hline : ((Grammar.pair Grammar.breaks Grammar.run).map fun r ↦ r.2.value).Yields fun r ↦
        ∀ c ∈ r.tape.value, c ≠ '"' :=
      (yields_pair .trivial yields_run).map fun _ h ↦ h.2
    exact hrule (yields_after "runs:" (yields_list hline)) fun _ h ↦ h

/-- Every section of a file is proper. -/
theorem yields_file : Grammar.file.Yields fun ss ↦ ∀ s ∈ ss, s.value.Proper := by
  have hblock : sectionBlock.Yields fun s ↦ s.value.Proper :=
    (yields_pair yields_anySection .trivial).map fun _ h ↦ h.1
  exact (Yields.rule (Yields.right _ (yields_pair .trivial
    (yields_pair (yields_list hblock) .trivial)))).map fun _ h ↦ h.2.1

/-! ### Statements -/

/-- A count that is read is within the limit. -/
theorem le_maxCount_of_readCount {d : Located Digits} {n : Nat} (h : readCount d = .ok n) :
    n ≤ maxCount := by
  rw [readCount, Text.count?] at h
  split at h
  · next hn =>
    split at hn
    · next hle =>
      obtain rfl := Option.some.inj hn
      obtain rfl := Except.ok.inj h
      exact hle
    · cases hn
  · cases h

/-- A state that is read is within the limit. -/
theorem le_maxCount_of_readState {d : Located Digits} {q : State} (h : readState d = .ok q) :
    q.index ≤ maxCount := by
  obtain ⟨n, hn, rfl⟩ := exists_of_map_eq_ok h
  exact le_maxCount_of_readCount hn

/-- A symbol is read as the character that it is written as. -/
theorem char_of_readSymbol {c : Located Char} {s : Symbol} (h : readSymbol c = .ok s) :
    s.char = c.value :=
  Symbol.ofChar_eq_ok_iff.mp (eq_ok_of_mapError_eq_ok h)

/-- A position that is read is within the limits. -/
theorem bounds_of_readPosition {p : Located PositionText} {n : Int} (h : readPosition p = .ok n) :
    minPosition ≤ n ∧ n ≤ maxPosition := by
  simp only [readPosition] at h
  split at h
  · cases h
  · split at h
    · cases h
    · obtain rfl := Except.ok.inj h
      omega

/-- A rule that is read from text without quotes can be written. -/
theorem writableRule_of_readRule {t r : _} (h : readRule t = .ok r)
    (ht : t.value.symbol.value ≠ '\'' ∧ t.value.write.value ≠ '\'') : WritableRule r.value := by
  obtain ⟨state, hstate, h⟩ := exists_of_bind_eq_ok h
  obtain ⟨symbol, hsymbol, h⟩ := exists_of_bind_eq_ok h
  obtain ⟨next, hnext, h⟩ := exists_of_bind_eq_ok h
  obtain ⟨write, hwrite, h⟩ := exists_of_bind_eq_ok h
  obtain ⟨action, haction, h⟩ := exists_of_bind_eq_ok h
  obtain rfl := Except.ok.inj h
  constructor
  · exact le_maxCount_of_readState hstate
  · rw [char_of_readSymbol hsymbol]
    exact ht.1
  · exact le_maxCount_of_readState hnext
  · rw [char_of_readSymbol hwrite]
    exact ht.2

/-- An input that is read from text without double quotes can be written. -/
theorem writableRun_of_readRun {t : RunText} {r : Run} (h : readRun t = .ok r)
    (ht : ∀ c ∈ t.tape.value, c ≠ '"') : WritableRun r := by
  obtain ⟨tape, htape, h⟩ := exists_of_bind_eq_ok h
  obtain ⟨head, hhead, h⟩ := exists_of_bind_eq_ok h
  obtain rfl := Except.ok.inj h
  obtain ⟨cells, hcells, rfl⟩ := exists_of_map_eq_ok (eq_ok_of_mapError_eq_ok htape)
  constructor
  · intro s hs
    obtain ⟨c, hc, hread⟩ := mem_of_mapM_eq_ok hcells hs
    rw [Symbol.ofChar_eq_ok_iff.mp hread]
    exact ht c hc
  · exact bounds_of_readPosition hhead

/-- What a proper section says can be written. -/
theorem writable_of_proper {s : Section} {st : Statement} (hs : s.Proper)
    (h : s.statement = .ok st) : st.Writable := by
  cases s with
  | name text =>
    obtain rfl := Except.ok.inj h
    have hpart := Text.trim_infix text
    show WritableName (String.ofList (Text.trim text)).toList
    rw [String.toList_ofList]
    exact ⟨Text.trimmed_trim text, fun c hc ↦ hs.1 c (hpart.subset hc),
      fun hp ↦ hs.2 (hp.trans hpart)⟩
  | mode m =>
    obtain rfl := Except.ok.inj h
    trivial
  | states count =>
    obtain ⟨n, hn, rfl⟩ := exists_of_map_eq_ok h
    exact le_maxCount_of_readCount hn
  | start state =>
    obtain ⟨q, hq, rfl⟩ := exists_of_map_eq_ok h
    exact le_maxCount_of_readState hq
  | alphabet symbols =>
    obtain ⟨as, has, rfl⟩ := exists_of_map_eq_ok h
    constructor
    · rintro rfl
      obtain ⟨c, cs, rfl⟩ := List.exists_cons_of_ne_nil hs.1
      obtain ⟨a, -, hrest⟩ := exists_of_bind_eq_ok ((List.mapM_cons ..).symm.trans has)
      obtain ⟨as, -, hnil⟩ := exists_of_bind_eq_ok hrest
      cases hnil
    · intro a ha
      obtain ⟨c, hc, hread⟩ := mem_of_mapM_eq_ok has ha
      rw [char_of_readSymbol hread]
      exact hs.2 c hc
  | transitions rules =>
    obtain ⟨rs, hrs, rfl⟩ := exists_of_map_eq_ok h
    intro r hr
    obtain ⟨l, hl, rfl⟩ := List.mem_map.mp hr
    obtain ⟨t, ht, hread⟩ := mem_of_mapM_eq_ok hrs hl
    exact writableRule_of_readRule hread (hs t ht)
  | runs texts =>
    obtain ⟨rs, hrs, rfl⟩ := exists_of_map_eq_ok h
    intro r hr
    obtain ⟨t, ht, hread⟩ := mem_of_mapM_eq_ok hrs hr
    exact writableRun_of_readRun hread (hs t ht)

/-! ### Programs -/

private theorem writable_alphabetOf {d : Draft} {rules : List (Located Rule)}
    (hd : ∀ k st, d.content k = some st → st.Writable)
    (hr : ∀ r ∈ rules.map Located.value, WritableRule r) :
    (alphabetOf d.alphabet rules = [] → rules = []) ∧
      ∀ s ∈ alphabetOf d.alphabet rules, s.char ≠ '\'' := by
  cases hs : d.alphabet with
  | some symbols =>
    have hsymbols : (Statement.alphabet symbols).Writable :=
      hd .alphabet _ (by rw [Draft.content, hs, Option.map_some])
    exact ⟨fun hnil ↦ absurd hnil hsymbols.1, hsymbols.2⟩
  | none =>
    constructor
    · intro hnil
      cases rules with
      | nil => rfl
      | cons r rules => cases hnil
    · intro s hs
      obtain ⟨r, hmem, hs⟩ := List.mem_flatMap.mp hs
      have hrule := hr r.value (List.mem_map_of_mem hmem)
      rcases List.mem_cons.mp hs with rfl | hs
      · exact hrule.symbol
      · rw [List.mem_singleton.mp hs]
        exact hrule.write

private theorem writable_start {d : Draft} (hd : ∀ k st, d.content k = some st → st.Writable) :
    (Statement.start (d.start.getD ⟨0⟩)).Writable := by
  cases hstart : d.start with
  | none =>
    show (0 : Nat) ≤ maxCount
    decide
  | some q => exact hd .start (.start q) (by rw [Draft.content, hstart, Option.map_some])

private theorem writable_runs {d : Draft} (hd : ∀ k st, d.content k = some st → st.Writable) :
    (Statement.runs (d.runs.getD [])).Writable := by
  cases hruns : d.runs with
  | none =>
    intro r hr
    cases hr
  | some rs => exact hd .runs (.runs rs) (by rw [Draft.content, hruns, Option.map_some])

private theorem writable_rules {d : Draft} {rules : List (Located Rule)}
    (hd : ∀ k st, d.content k = some st → st.Writable) (hrules : d.rules = some rules) :
    ∀ r ∈ rules.map Located.value, WritableRule r :=
  hd .transitions (.transitions (rules.map Located.value))
    (by rw [Draft.content, hrules, Option.map_some])

/-- A draft that holds what can be written describes a program that can be written. -/
theorem writable_described {d : Draft} {name : String} {n : Nat} {rules : List (Located Rule)}
    (hd : ∀ k st, d.content k = some st → st.Writable) (hname : d.name = some name)
    (hstates : d.states = some n) (hrules : d.rules = some rules) :
    ((d.described name n rules).machine.alphabet.toList = [] →
      (d.described name n rules).machine.table.rules = []) ∧
      ∀ s ∈ statementsOf (d.described name n rules), s.Writable := by
  have hwritable := writable_rules hd hrules
  obtain ⟨hempty, hsymbols⟩ := writable_alphabetOf hd hwritable
  have hmem : ∀ s, s ∈ (SortedSet.ofList (alphabetOf d.alphabet rules)).toList ↔
      s ∈ alphabetOf d.alphabet rules :=
    fun s ↦ SortedSet.mem_toList_iff.trans SortedSet.contains_ofList
  constructor
  · intro hnil
    have hset : (SortedSet.ofList (alphabetOf d.alphabet rules)).toList = [] := hnil
    have hnone : alphabetOf d.alphabet rules = [] := by
      apply List.eq_nil_iff_forall_not_mem.mpr
      intro s hs
      rw [← hmem, hset] at hs
      cases hs
    rw [Draft.described, hempty hnone]
    rfl
  · intro s hs
    simp only [statementsOf, List.mem_append, List.mem_cons, List.not_mem_nil, or_false,
      mem_alphabetStatements] at hs
    rcases hs with ((rfl | rfl | rfl | rfl) | ⟨hne, rfl⟩) | rfl | rfl
    · exact hd .name (.name name) (by rw [Draft.content, hname, Option.map_some])
    · trivial
    · exact hd .states (.states n) (by rw [Draft.content, hstates, Option.map_some])
    · exact writable_start hd
    · exact ⟨hne, fun s hs ↦ hsymbols s ((hmem s).mp hs)⟩
    · intro r hr
      rcases Table.mem_of_mem_rules_foldl_define hr with hr | hr
      · exact hwritable r hr
      · cases hr
    · exact writable_runs hd

/-- A program with a name that is read from a file can be written. -/
theorem writable_of_parse {source : String} {p : Program} {warnings : List Warning}
    (h : parse source = .ok (p, warnings)) (hname : p.name ≠ "") :
    p.Writable ∧ p.Representable := by
  obtain ⟨secs, hsecs, hprogram⟩ := parse_eq_ok_iff.mp h
  obtain ⟨d, again, findings, hdraft, hd, -, -⟩ := programOf_eq_ok_iff.mp hprogram
  obtain ⟨name, n, rules, hn, hs, hr, rfl⟩ := Draft.eq_described hd
  have hproper : ∀ s ∈ secs, s.value.Proper := by
    obtain ⟨last, ho⟩ := (Peg.read_eq_ok_iff rfl).mp (eq_ok_of_mapError_eq_ok hsecs)
    exact yields_file _ _ last ho
  have hheld : ∀ k st, d.content k = some st → st.Writable := by
    intro k st hst
    rcases Draft.content_of_foldlM_add hdraft hst with hnone | ⟨s, hmem, hs⟩
    · cases k <;> cases hnone
    · exact writable_of_proper (hproper s hmem) hs
  exact writable_iff.mpr ⟨hname, writable_described hheld hn hs hr⟩

/-- A program that can be written is read back from its file if its mode is normal; and whatever
program with a name is read from any file can be written. -/
theorem parse_written :
    (∀ p : Program, p.mode = .normal → p.Writable → p.Representable →
      ∃ warnings, parse (written p) = .ok (p, warnings)) ∧
    ∀ (source : String) (p : Program) (warnings : List Warning),
      parse source = .ok (p, warnings) → p.name ≠ "" → p.Writable ∧ p.Representable :=
  ⟨fun _ hmode hw hr ↦ parse_eq_of_writable hmode hw hr,
    fun _ _ _ h hname ↦ writable_of_parse h hname⟩

/-- A program whose name, symbols and tape look like parts of the grammar. -/
def slashes : Program where
  name := "a / (b, c)"
  mode := .normal
  machine := ⟨1, ⟨3⟩, SortedSet.ofList [⟨'/', rfl⟩, ⟨',', rfl⟩, ⟨'"', rfl⟩],
    tableOf [⟨⟨⟨0⟩, ⟨'/', rfl⟩⟩, ⟨⟨7⟩, ⟨'(', rfl⟩, .moveLeft⟩⟩]⟩
  runs := [⟨Tape.ofList [⟨'/', rfl⟩, ⟨'/', rfl⟩, ⟨'\'', rfl⟩], -1⟩]

/-- It is read back from its file, and so it can be written. -/
theorem parse_written_slashes :
    (slashes.mode = .normal ∧ slashes.name ≠ "" ∧
      ∃ warnings, parse (written slashes) = .ok (slashes, warnings)) ∧
    slashes.Writable ∧ slashes.Representable := by
  have hname : slashes.name.toList = ['a', ' ', '/', ' ', '(', 'b', ',', ' ', 'c', ')'] := rfl
  have hcomment : "//".toList = ['/', '/'] := rfl
  have hne : slashes.name ≠ "" := by decide
  have hwritable : slashes.Writable := by
    constructor
    · exact hne
    · rw [hname]
      constructor
      · rintro c ⟨⟩
        rfl
      · rintro c ⟨⟩
        rfl
    · rw [hname]
      simp
    · rw [hname, hcomment]
      decide
    · decide
    · decide
    · decide
    · decide
  have hrepresentable : slashes.Representable := by
    constructor <;> decide
  obtain ⟨warnings, h⟩ := parse_written.1 slashes rfl hwritable hrepresentable
  exact ⟨⟨rfl, hne, warnings, h⟩, parse_written.2 _ _ _ h hne⟩

end TapeMachine.Definition
