import TapeMachine.Proofs.Definition.Content
import TapeMachine.Proofs.Definition.Words

/-!
# Reading what is written

The lines of rules and inputs and the sections are read as they are written. Behind a section there
is a line break and another section, or the end; so neither a table nor the inputs go on there.
-/

namespace TapeMachine.Definition

open Peg (Takes Refuses)
open Text (IsNumeral isNumeral_digits)

variable {α β γ : Type} {e : Grammar.Expr α} {w rest text : List Char} {V : α → Prop}

/-! ### Lines -/

private theorem refuses_digit_cons {a : Char} (h : a.isDigit = false) (rest : List Char) :
    Grammar.digit.Refuses (a :: rest) := by
  apply Refuses.satisfying
  intro b hb
  rwa [← Option.some.inj hb]

/-- Before a numeral no gap begins. -/
theorem solid_numeral {ds : Digits} (h : IsNumeral ds) (rest : List Char) :
    Solid (ds ++ rest) := by
  obtain ⟨d, ds, rfl⟩ := List.exists_cons_of_ne_nil h.ne_nil
  have hd := h.isDigit d List.mem_cons_self
  refine solid_cons ⟨?_, ?_, ?_⟩ _
  all_goals
    rintro rfl
    cases hd

/-- Before a state no gap begins. -/
theorem solid_state {q : StateText} (h : IsNumeral q.digits) (rest : List Char) :
    Solid (q.spelled ++ rest) := by
  rw [StateText.spelled]
  split
  · exact solid_cons (by decide) _
  · exact solid_numeral h rest

/-- Before a head position no gap begins. -/
theorem solid_position {t : PositionText} (h : IsNumeral t.digits) (rest : List Char) :
    Solid (t.spelled ++ rest) := by
  rw [PositionText.spelled]
  split
  · exact solid_cons (by decide) _
  · exact solid_numeral h rest

private theorem solid_code (a : Action) (rest : List Char) : Solid (a.code :: rest) := by
  cases a <;> exact solid_cons (by decide) rest

/-- A rule as it may be written, with its symbols in quotes. -/
def spelledRule (state : StateText) (symbol : Symbol) (next : StateText) (write : Symbol)
    (action : Action) : List Char :=
  List.flatten ["(".toList, state.spelled, ", ".toList, writtenSymbol symbol, ") -> (".toList,
    next.spelled, ", ".toList, writtenSymbol write, ", ".toList, [action.code], ")".toList]

/-- The parts of a rule are read from its line. -/
theorem takes_ruleText (state next : StateText) (hstate : IsNumeral state.digits)
    (hnext : IsNumeral next.digits) {symbol write : Symbol} (hsymbol : symbol.char ≠ '\'')
    (hwrite : write.char ≠ '\'') (action : Action) (rest : List Char) :
    Grammar.transition.Takes (spelledRule state symbol next write action) rest fun t ↦
      t.value.state.value = state.digits ∧ readSymbol t.value.symbol = .ok symbol ∧
      t.value.next.value = next.digits ∧ readSymbol t.value.write = .ok write ∧
      readAction t.value.action = .ok action := by
  refine ((takes_after "(" ?state <| takes_pair ?_ (takes_stateText hstate ?read) <|
    takes_after_blank "," ?_ <| takes_pair ?_ (takes_symbol hsymbol _) <|
    takes_after_blank ")" ?_ <| takes_after_blank "->" ?_ <| takes_after "(" ?next <|
    takes_pair ?_ (takes_stateText hnext ?readNext) <| takes_after_blank "," ?_ <|
    takes_pair ?_ (takes_symbol hwrite _) <| takes_after_blank "," ?action <|
    takes_before ")" ?_ (takes_action action _)).map
      (W := fun t : RuleText ↦ t.state.value = state.digits ∧ readSymbol t.symbol = .ok symbol ∧
        t.next.value = next.digits ∧ readSymbol t.write = .ok write ∧
        readAction t.action = .ok action) ?parts).rule
  case state =>
    rw [List.append_assoc]
    exact solid_state hstate _
  case next =>
    rw [List.append_assoc]
    exact solid_state hnext _
  case read => exact refuses_digit_cons (by decide) _
  case readNext => exact refuses_digit_cons (by decide) _
  case action => exact solid_code action _
  case parts =>
    rintro ⟨state, symbol, next, write, action⟩ ⟨h₁, h₂, h₃, h₄, h₅⟩
    exact ⟨h₁, h₂, h₃, h₄, h₅⟩
  all_goals exact solid_cons (by decide) _

/-- A rule is read from its line. -/
theorem takes_transition {r : Rule} (hr : WritableRule r) (rest : List Char) :
    Grammar.transition.Takes (writtenRule r) rest fun t ↦ Located.value <$> readRule t = .ok r := by
  apply (takes_ruleText ⟨true, _⟩ ⟨true, _⟩ (isNumeral_digits r.trigger.state.index)
    (isNumeral_digits r.transition.next.index) hr.symbol hr.write r.transition.action rest).mono
  rintro t ⟨h₁, h₂, h₃, h₄, h₅⟩
  simp only [readRule, readState_digits h₁ hr.state, h₂, readState_digits h₃ hr.next, h₄, h₅]
  rfl

/-- The parts of an input are read from its line. -/
theorem takes_runText {tape : Tape} (htape : ∀ s ∈ tape.toList, s.char ≠ '"') {head : PositionText}
    (hhead : IsNumeral head.digits) (hrest : EndsLine rest) :
    Grammar.run.Takes ("\"".toList ++ (tape.toList.map Symbol.char ++
      ("\" @ ".toList ++ head.spelled))) rest fun t ↦
      readTape t.value.tape = .ok tape ∧ t.value.position.value = head := by
  have hline : "\"".toList ++ (tape.toList.map Symbol.char ++ ("\" @ ".toList ++ head.spelled)) =
      ("\"".toList ++ (tape.toList.map Symbol.char ++ "\"".toList)) ++
        (' ' :: ("@".toList ++ ' ' :: head.spelled)) := by
    rw [List.append_assoc, List.append_assoc]
    rfl
  rw [hline]
  refine (((takes_tape htape _).seq (takes_blank_right ?_ <|
    takes_after_blank "@" (solid_position hhead rest) <|
    takes_positionText hhead hrest.refuses_digit)).map
      (W := fun t : RunText ↦ readTape t.tape = .ok tape ∧ t.position.value = head) ?_).rule
  · exact solid_cons (by decide) _
  · rintro ⟨tape, position⟩ ⟨h₁, h₂⟩
    exact ⟨h₁, h₂⟩

/-- An input is read from its line. -/
theorem takes_run {r : Run} (hr : WritableRun r) (hrest : EndsLine rest) :
    Grammar.run.Takes (writtenRun r) rest fun t ↦ readRun t.value = .ok r := by
  rw [writtenRun, ← spelled_positionText]
  apply (takes_runText hr.tape (isNumeral_positionText r.head) hrest).mono
  rintro t ⟨h₁, h₂⟩
  simp only [readRun, h₁, readPosition_positionText h₂ hr.head]
  rfl

/-! ### Sections -/

/-- The text is at its end, or goes on with a section on another line. -/
def Follows (text : List Char) : Prop :=
  text = [] ∨ ∃ (s : Statement) (rest : List Char), text = '\n' :: (s.written ++ rest)

/-- A section begins with a small letter. -/
theorem exists_lower (s : Statement) (rest : List Char) :
    ∃ a text, s.written ++ rest = a :: text ∧ a.isLower = true := by
  cases s <;> exact ⟨_, _, rfl, by decide⟩

/-- Before a small letter no gap begins. -/
theorem solid_lower {a : Char} (ha : a.isLower = true) (rest : List Char) : Solid (a :: rest) := by
  refine solid_cons ⟨?_, ?_, ?_⟩ rest
  all_goals
    rintro rfl
    cases ha

/-- A small letter ends no line. -/
theorem isBreak_lower {a : Char} (ha : a.isLower = true) : Grammar.isBreak a = false := by
  by_cases hn : a = '\n'
  · subst hn
    cases ha
  · by_cases hr : a = '\r'
    · subst hr
      cases ha
    · simp [Grammar.isBreak, hn, hr]

/-- Where no section goes on, the line ends. -/
theorem Follows.endsLine (h : Follows text) : EndsLine text := by
  rcases h with rfl | ⟨s, rest, rfl⟩
  · intro a ha
    cases ha
  · intro a ha
    exact (Option.some.inj ha).symm

/-- Before a section no gap begins. -/
theorem solid_written (s : Statement) (rest : List Char) : Solid (s.written ++ rest) := by
  obtain ⟨a, text, htext, ha⟩ := exists_lower s rest
  exact htext ▸ solid_lower ha text

/-- Before a section no line ends. -/
theorem isBreak_written {s : Statement} {a : Char} (h : (s.written ++ rest).head? = some a) :
    Grammar.isBreak a = false := by
  obtain ⟨b, text, htext, hb⟩ := exists_lower s rest
  rw [htext] at h
  rw [← Option.some.inj h]
  exact isBreak_lower hb

private theorem refuses_literal_cons {s : String} {b : Char} {cs : List Char}
    (hs : s.toList = b :: cs) (h : ∀ a, text.head? = some a → a ≠ b) :
    (Peg.literal s : Grammar.Expr Unit).Refuses text := by
  apply Refuses.literal
  rw [hs]
  rintro ⟨t, rfl⟩
  exact h b rfl rfl

/-- No line of a table or of inputs goes on where a section follows. -/
theorem refuses_onLine {g : Unit × α → β} (h : Follows text)
    (he : ∀ a rest, a.isLower = true → e.Refuses (a :: rest)) :
    ((Grammar.pair Grammar.breaks e).map g).Refuses text := by
  rcases h with rfl | ⟨s, rest, rfl⟩
  · exact (((Refuses.nil rfl).seq _).map.seq _).map
  · obtain ⟨a, u, hu, ha⟩ := exists_lower s rest
    have hrefuses : e.Refuses (s.written ++ rest) := hu ▸ he a u ha
    exact (Refuses.seq_of_takes (w := ['\n'])
      (takes_breaks (solid_written s rest) fun b hb ↦ isBreak_written hb)
      (refuses_gap_right (solid_written s rest) hrefuses)).map

/-- No rule begins with a small letter. -/
theorem refuses_transition {a : Char} (ha : a.isLower = true) (rest : List Char) :
    Grammar.transition.Refuses (a :: rest) := by
  refine (((refuses_literal_cons rfl ?_).right _).map).rule
  rintro b hb rfl
  obtain rfl := Option.some.inj hb
  cases ha

/-- No input begins with a small letter. -/
theorem refuses_run {a : Char} (ha : a.isLower = true) (rest : List Char) :
    Grammar.run.Refuses (a :: rest) := by
  refine (((((refuses_literal_cons rfl ?_).right _).rule.map).seq _).map).rule
  rintro b hb rfl
  obtain rfl := Option.some.inj hb
  cases ha

private theorem mapM_of_map_value_eq {f : α → Except Error γ} {g : γ → β} {as : List α}
    {bs : List β} (h : (as.map fun a ↦ g <$> f a) = bs.map .ok) :
    ∃ cs, as.mapM f = .ok cs ∧ cs.map g = bs := by
  induction as generalizing bs with
  | nil =>
    obtain rfl := List.map_eq_nil_iff.mp h.symm
    exact ⟨[], rfl, rfl⟩
  | cons a as ih =>
    cases bs with
    | nil => cases h
    | cons b bs =>
      simp only [List.map_cons, List.cons.injEq] at h
      obtain ⟨ha, has⟩ := h
      obtain ⟨cs, hcs, rfl⟩ := ih has
      cases hf : f a with
      | error e =>
        rw [hf] at ha
        cases ha
      | ok c =>
        rw [hf] at ha
        obtain rfl := Except.ok.inj ha
        refine ⟨c :: cs, ?_, rfl⟩
        rw [List.mapM_cons, hf, hcs]
        rfl

private theorem mapM_of_map_eq {f : α → Except Error β} {as : List α} {bs : List β}
    (h : as.map f = bs.map .ok) : as.mapM f = .ok bs := by
  obtain ⟨cs, hcs, hbs⟩ := mapM_of_map_value_eq (g := id) (by simpa using h)
  rw [hcs, ← hbs, List.map_id]

/-- The symbols of an alphabet are read from their line. -/
theorem takes_symbols {symbols : List Symbol} (hne : symbols ≠ [])
    (hs : ∀ s ∈ symbols, s.char ≠ '\'') (hrest : EndsLine rest) :
    (Grammar.pair Grammar.symbol (Grammar.list (Grammar.after "," Grammar.symbol))).Takes
      (writtenSymbols symbols) rest fun x ↦ (x.1 :: x.2).mapM readSymbol = .ok symbols := by
  obtain ⟨s, ss, rfl⟩ := List.exists_cons_of_ne_nil hne
  have hsolid : ∀ ts : List Symbol,
      Solid ((ts.flatMap fun t ↦ ", ".toList ++ writtenSymbol t) ++ rest) := by
    intro ts
    cases ts with
    | nil => exact hrest.solid
    | cons t ts => exact solid_cons (by decide) _
  have hstop : (Grammar.after "," Grammar.symbol).Refuses rest := by
    refine (refuses_literal_cons rfl fun a ha ↦ ?_).right _
    rw [hrest a ha]
    decide
  have hothers : (Grammar.list (Grammar.after "," Grammar.symbol)).Takes
      (ss.flatMap fun t ↦ ", ".toList ++ writtenSymbol t) rest
      fun cs ↦ cs.map readSymbol = ss.map .ok :=
    takes_list rfl (fun t ts ht ↦ takes_after_blank "," (solid_cons (by decide) _)
      (takes_symbol (hs t (List.mem_cons_of_mem _ (ht.subset List.mem_cons_self))) _))
      (fun ts _ ↦ hsolid ts) hstop
  apply (takes_pair (hsolid ss) (takes_symbol (hs s List.mem_cons_self) _) hothers).mono
  rintro ⟨a, as⟩ ⟨ha, has⟩
  apply mapM_of_map_eq
  rw [List.map_cons, List.map_cons, ha, has]

/-- The rules of a table are read from their lines. -/
theorem takes_transitions {rules : List Rule} (hr : ∀ r ∈ rules, WritableRule r)
    (hrest : Follows rest) :
    (Grammar.list ((Grammar.pair Grammar.breaks Grammar.transition).map Prod.snd)).Takes
      (rules.flatMap fun r ↦ '\n' :: writtenRule r) rest
      fun ts ↦ ∃ rs, ts.mapM readRule = .ok rs ∧ rs.map Located.value = rules := by
  refine (takes_list rfl (fun r rs hs ↦ takes_onLine (solid_cons (by decide) _) ?_
    (takes_transition (hr r (hs.subset List.mem_cons_self)) _))
    (fun rs _ ↦ (endsLine_lines rs hrest.endsLine).solid)
    (refuses_onLine hrest fun a rest ha ↦ refuses_transition ha rest)).mono
    fun ts hts ↦ mapM_of_map_value_eq hts
  intro a ha
  obtain rfl := Option.some.inj ha
  rfl

/-- The inputs are read from their lines. -/
theorem takes_runs {runs : List Run} (hr : ∀ r ∈ runs, WritableRun r) (hrest : Follows rest) :
    (Grammar.list ((Grammar.pair Grammar.breaks Grammar.run).map fun r ↦ r.2.value)).Takes
      (runs.flatMap fun r ↦ '\n' :: writtenRun r) rest fun rs ↦ rs.mapM readRun = .ok runs := by
  refine (takes_list rfl (fun r rs hs ↦ (takes_pair (solid_cons (by decide) _)
    (takes_breaks (solid_cons (by decide) _) ?_)
    (takes_run (hr r (hs.subset List.mem_cons_self)) (endsLine_lines rs hrest.endsLine))).map
      fun _ hx ↦ hx.2)
    (fun rs _ ↦ (endsLine_lines rs hrest.endsLine).solid)
    (refuses_onLine hrest fun a rest ha ↦ refuses_run ha rest)).mono
    fun rs hrs ↦ mapM_of_map_eq hrs
  intro a ha
  obtain rfl := Option.some.inj ha
  rfl

private theorem starts_with_keyword (s : Statement) :
    (s.kind.keyword ++ ":").toList <+: s.written := by
  rw [String.toList_append]
  cases s with
  | name n =>
    show "name".toList ++ ":".toList <+: "name: ".toList ++ n.toList
    exact ⟨_, rfl⟩
  | mode m =>
    show "mode".toList ++ ":".toList <+: "mode: ".toList ++ writtenMode m
    exact ⟨_, rfl⟩
  | states n =>
    show "states".toList ++ ":".toList <+: "states: ".toList ++ Text.digits n
    exact ⟨_, rfl⟩
  | start q =>
    show "start".toList ++ ":".toList <+: "start: ".toList ++ writtenState q
    exact ⟨_, rfl⟩
  | alphabet symbols =>
    show "alphabet".toList ++ ":".toList <+: "alphabet: ".toList ++ writtenSymbols symbols
    exact ⟨_, rfl⟩
  | transitions rules =>
    show "transitions".toList ++ ":".toList <+: "transitions:".toList ++ _
    exact ⟨_, rfl⟩
  | runs rs =>
    show "runs".toList ++ ":".toList <+: "runs:".toList ++ _
    exact ⟨_, rfl⟩

private theorem keywords_differ {k k' : SectionKind} (h : k ≠ k') :
    ¬(k.keyword ++ ":").toList <+: (k'.keyword ++ ":").toList := by
  revert h
  cases k <;> cases k' <;> simp [SectionKind.keyword]

/-- A section is refused where the keyword of another kind stands. -/
theorem refuses_section_of_keyword {n : RuleName} {kw : String} {g : α → Section}
    {k k' : SectionKind} (hkw : kw = k.keyword ++ ":") (h : decide (k = k') = false)
    {text : List Char} (hp' : (k'.keyword ++ ":").toList <+: text) :
    (Peg.rule n ((Grammar.after kw e).map g)).Refuses text := by
  have hk : k ≠ k' := of_decide_eq_false h
  have hprefix : ¬kw.toList <+: text := by
    intro hp
    rw [hkw] at hp
    rcases List.prefix_or_prefix_of_prefix hp hp' with hp | hp
    · exact keywords_differ hk hp
    · exact keywords_differ hk.symm hp
  exact (((Refuses.literal hprefix).right _).map).rule

/-- The sections of a kind. -/
def sectionOf : SectionKind → Grammar.Expr (Located Section)
  | .name => .rule .name ((Grammar.after "name:" Grammar.text).map fun t ↦ .name t.value)
  | .mode => .rule .mode ((Grammar.after "mode:" Grammar.modeValue).map fun m ↦ .mode m.value)
  | .states => .rule .states ((Grammar.after "states:" Grammar.count).map .states)
  | .start => .rule .start ((Grammar.after "start:" Grammar.state).map .start)
  | .alphabet => .rule .alphabet
      ((Grammar.after "alphabet:"
        (Grammar.pair Grammar.symbol (Grammar.list (Grammar.after "," Grammar.symbol)))).map
        fun (first, others) ↦ .alphabet (first :: others))
  | .transitions => .rule .transitions
      ((Grammar.after "transitions:"
        (Grammar.list ((Grammar.pair Grammar.breaks Grammar.transition).map Prod.snd))).map
        .transitions)
  | .runs => .rule .runs
      ((Grammar.after "runs:"
        (Grammar.list ((Grammar.pair Grammar.breaks Grammar.run).map fun r ↦ r.2.value))).map .runs)

/-- What begins with the keyword of a kind is read as a section of that kind. -/
theorem takes_anySection_of_keyword {V : Located Section → Prop} (k : SectionKind)
    (hk : (k.keyword ++ ":").toList <+: w ++ rest) (h : (sectionOf k).Takes w rest V) :
    Grammar.anySection.Takes w rest V := by
  -- Every section before the right one in the choice is refused for its keyword.
  have refused {α : Type} {n : RuleName} {kw : String} {e : Grammar.Expr α} {g : α → Section}
      (k' : SectionKind) (hkw : kw = k'.keyword ++ ":") (hne : decide (k' = k) = false) :
      (Peg.rule n ((Grammar.after kw e).map g)).Refuses (w ++ rest) :=
    refuses_section_of_keyword hkw hne hk
  cases k with
  | name => exact .choice h _
  | mode => exact .choice_of_refuses (refused .name rfl rfl) <| .choice h _
  | states =>
    exact .choice_of_refuses (refused .name rfl rfl) <|
      .choice_of_refuses (refused .mode rfl rfl) <| .choice h _
  | start =>
    exact .choice_of_refuses (refused .name rfl rfl) <|
      .choice_of_refuses (refused .mode rfl rfl) <|
      .choice_of_refuses (refused .states rfl rfl) <| .choice h _
  | alphabet =>
    exact .choice_of_refuses (refused .name rfl rfl) <|
      .choice_of_refuses (refused .mode rfl rfl) <|
      .choice_of_refuses (refused .states rfl rfl) <|
      .choice_of_refuses (refused .start rfl rfl) <| .choice h _
  | transitions =>
    exact .choice_of_refuses (refused .name rfl rfl) <|
      .choice_of_refuses (refused .mode rfl rfl) <|
      .choice_of_refuses (refused .states rfl rfl) <|
      .choice_of_refuses (refused .start rfl rfl) <|
      .choice_of_refuses (refused .alphabet rfl rfl) <| .choice h _
  | runs =>
    exact .choice_of_refuses (refused .name rfl rfl) <|
      .choice_of_refuses (refused .mode rfl rfl) <|
      .choice_of_refuses (refused .states rfl rfl) <|
      .choice_of_refuses (refused .start rfl rfl) <|
      .choice_of_refuses (refused .alphabet rfl rfl) <|
      .choice_of_refuses (refused .transitions rfl rfl) h

private theorem takes_section {n : RuleName} {k : String} {g : α → Section} {s : Statement}
    (h : (Grammar.after k e).Takes w rest fun a ↦ (g a).statement = .ok s) :
    (Peg.rule n ((Grammar.after k e).map g)).Takes w rest fun x ↦ x.value.statement = .ok s :=
  (h.map (W := fun x : Section ↦ x.statement = .ok s) fun _ hg ↦ hg).rule

private theorem takes_nameLine {n : String} (hn : (Statement.name n).Writable) (hne : n ≠ "")
    (hrest : EndsLine rest) :
    (Grammar.after "name:" Grammar.text).Takes (Statement.name n).written rest
      fun t ↦ (Section.name t.value).statement = .ok (.name n) := by
  have hchars : n.toList ≠ [] := by
    intro hnil
    exact hne (String.toList_eq_nil_iff.mp hnil)
  apply (takes_after_blank "name:" (solid_name hn hrest) (takes_text hn hchars hrest)).mono
  rintro ⟨t, sp⟩ rfl
  rw [Section.statement, Text.trim_of_trimmed hn.trimmed, String.ofList_toList]

private theorem takes_modeLine (m : Mode) (rest : List Char) :
    (Grammar.after "mode:" Grammar.modeValue).Takes (Statement.mode m).written rest
      fun v ↦ (Section.mode v.value).statement = .ok (.mode m) := by
  have hsolid : Solid (writtenMode m ++ rest) := by
    cases m <;> exact solid_cons (by decide) _
  apply (takes_after_blank "mode:" hsolid (takes_modeValue m rest)).mono
  rintro ⟨m, sp⟩ rfl
  rfl

private theorem takes_statesLine {n : Nat} (hn : n ≤ maxCount) (hrest : EndsLine rest) :
    (Grammar.after "states:" Grammar.count).Takes (Statement.states n).written rest
      fun d ↦ (Section.states d).statement = .ok (.states n) := by
  have hdigits := isNumeral_digits n
  refine (takes_after_blank "states:" (solid_numeral hdigits rest)
    (takes_countText hdigits hrest.refuses_digit)).mono ?_
  intro d hd
  rw [Section.statement, readCount_digits hd hn]
  rfl

private theorem takes_startLine {q : State} (hq : q.index ≤ maxCount) (hrest : EndsLine rest) :
    (Grammar.after "start:" Grammar.state).Takes (Statement.start q).written rest
      fun d ↦ (Section.start d).statement = .ok (.start q) := by
  refine (takes_after_blank "start:" (solid_cons (by decide) _)
    (takes_stateText (q := ⟨true, _⟩) (isNumeral_digits q.index) hrest.refuses_digit)).mono ?_
  intro d hd
  rw [Section.statement, readState_digits hd hq]
  rfl

private theorem takes_alphabetLine {symbols : List Symbol}
    (h : (Statement.alphabet symbols).Writable) (hrest : EndsLine rest) :
    (Grammar.after "alphabet:"
      (Grammar.pair Grammar.symbol (Grammar.list (Grammar.after "," Grammar.symbol)))).Takes
      (Statement.alphabet symbols).written rest
      fun x ↦ (Section.alphabet (x.1 :: x.2)).statement = .ok (.alphabet symbols) := by
  have hsolid : Solid (writtenSymbols symbols ++ rest) := by
    obtain ⟨s, ss, rfl⟩ := List.exists_cons_of_ne_nil h.1
    exact solid_cons (by decide) _
  apply (takes_after_blank "alphabet:" hsolid (takes_symbols h.1 h.2 hrest)).mono
  intro x hx
  rw [Section.statement, hx]
  rfl

private theorem takes_transitionsLines {rules : List Rule} (h : ∀ r ∈ rules, WritableRule r)
    (hrest : Follows rest) :
    (Grammar.after "transitions:"
      (Grammar.list ((Grammar.pair Grammar.breaks Grammar.transition).map Prod.snd))).Takes
      (Statement.transitions rules).written rest
      fun ts ↦ (Section.transitions ts).statement = .ok (.transitions rules) := by
  refine (takes_after "transitions:" (endsLine_lines rules hrest.endsLine).solid
    (takes_transitions h hrest)).mono ?_
  rintro ts ⟨rs, hrs, rfl⟩
  rw [Section.statement, hrs]
  rfl

private theorem takes_runsLines {rs : List Run} (h : ∀ r ∈ rs, WritableRun r)
    (hrest : Follows rest) :
    (Grammar.after "runs:"
      (Grammar.list ((Grammar.pair Grammar.breaks Grammar.run).map fun r ↦ r.2.value))).Takes
      (Statement.runs rs).written rest
      fun ts ↦ (Section.runs ts).statement = .ok (.runs rs) := by
  apply (takes_after "runs:" (endsLine_lines rs hrest.endsLine).solid (takes_runs h hrest)).mono
  intro ts hts
  rw [Section.statement, hts]
  rfl

/-- A section is read from its lines. -/
theorem takes_anySection {s : Statement} (hs : s.Writable) (hne : s ≠ .name "")
    (hrest : Follows rest) :
    Grammar.anySection.Takes s.written rest fun x ↦ x.value.statement = .ok s := by
  have hline := hrest.endsLine
  apply takes_anySection_of_keyword s.kind
    ((starts_with_keyword s).trans (List.prefix_append _ rest))
  cases s with
  | name n =>
    have hn : n ≠ "" := by
      rintro rfl
      exact hne rfl
    exact takes_section (takes_nameLine hs hn hline)
  | mode m => exact takes_section (takes_modeLine m rest)
  | states n => exact takes_section (takes_statesLine hs hline)
  | start q => exact takes_section (takes_startLine hs hline)
  | alphabet symbols => exact takes_section (takes_alphabetLine hs hline)
  | transitions rules => exact takes_section (takes_transitionsLines hs hrest)
  | runs rs => exact takes_section (takes_runsLines hs hrest)

end TapeMachine.Definition
