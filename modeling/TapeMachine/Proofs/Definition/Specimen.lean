import TapeMachine.Proofs.Definition.Numerals
import TapeMachine.Proofs.Definition.Order
import TapeMachine.Proofs.Definition.RoundTrip

/-!
# Numbers of every kind in one file

A file with a number at every kind of place, each of them spelled at will. It is read as the machine
with the decimal values, or refused for the first number beyond its limits (`parse_specimen`). So
numerals are read exactly: as words before everything that is no digit, in every file, and in a file
for each of them (`numerals_are_exact`).
-/

namespace TapeMachine.Definition

open Peg (Takes Refuses)
open Text (IsNumeral StartsOutside decimal)

variable {w : List Char} {s : Section}

/-! ### The file -/

/-- The numbers of a file, as they are written. -/
structure Numbers where
  states : Digits
  start : StateText
  state : StateText
  next : StateText
  head : PositionText

namespace Numbers

/-- All of them have digits. -/
structure AreNumerals (x : Numbers) : Prop where
  states : IsNumeral x.states
  start : IsNumeral x.start.digits
  state : IsNumeral x.state.digits
  next : IsNumeral x.next.digits
  head : IsNumeral x.head.digits

/-- The symbol in the file. -/
def letter : Symbol := ⟨'a', .refl true⟩

/-- The sections of the file, each on lines of its own. -/
def blocks (x : Numbers) : List (List Char) :=
  ["name: n".toList, "states: ".toList ++ x.states, "start: ".toList ++ x.start.spelled,
    "transitions:\n".toList ++ spelledRule x.state letter x.next letter .moveRight,
    "runs:\n\"a\" @ ".toList ++ x.head.spelled]

/-- The file. -/
def file (x : Numbers) : String := String.ofList (['\n'].intercalate x.blocks)

/-- The sections of the file, wherever their parts stand. -/
def sections (x : Numbers) : List Section :=
  [.name ['n'], .states ⟨x.states, ⟨0, 0⟩⟩, .start ⟨x.start.digits, ⟨0, 0⟩⟩,
    .transitions [⟨⟨⟨x.state.digits, ⟨0, 0⟩⟩, ⟨'a', ⟨0, 0⟩⟩, ⟨x.next.digits, ⟨0, 0⟩⟩,
      ⟨'a', ⟨0, 0⟩⟩, ⟨'R', ⟨0, 0⟩⟩⟩, ⟨0, 0⟩⟩],
    .runs [⟨⟨['a'], ⟨0, 0⟩⟩, ⟨x.head, ⟨0, 0⟩⟩⟩]]

/-- What the file describes, if all its numbers are within their limits. -/
def program (x : Numbers) : Program :=
  ⟨"n", .normal,
    ((Machine.blank (decimal x.states) ⟨decimal x.start.digits⟩).addSymbol letter).define
      ⟨⟨⟨decimal x.state.digits⟩, letter⟩, ⟨⟨decimal x.next.digits⟩, letter, .moveRight⟩⟩,
    [⟨⟨#[letter]⟩, x.head.number⟩]⟩

end Numbers

/-! ### Its sections -/

/-- What is read as a section of a kind where the text ends is read so everywhere. -/
theorem readsAs_of_takes (k : SectionKind) (hk : (k.keyword ++ ":").toList <+: w)
    (h : (sectionOf k).Takes w [] fun x ↦ SameSection s x.value) : ReadsAs w s := by
  refine ⟨beginsSmall_of_keyword hk, fun more pos hmore ↦ ?_⟩
  have hk' : (k.keyword ++ ":").toList <+: w ++ [] := by rwa [List.append_nil]
  obtain ⟨x, hx, hsame⟩ := takes_anySection_of_keyword k hk' h pos
  have hread := continues_anySection hmore ⟨w, pos⟩
  rw [List.append_nil] at hx
  rw [hx] at hread
  exact ⟨x, _, hread, rfl, hsame⟩

private theorem refuses_digit_nil : Grammar.digit.Refuses [] := Refuses.nil rfl

private theorem readsAs_name : ReadsAs "name: n".toList (.name ['n']) := by
  have hname : WritableName ['n'] := by
    refine ⟨⟨?_, ?_⟩, ?_, by decide⟩
    · rintro c ⟨⟩
      rfl
    · rintro c ⟨⟩
      rfl
    · simp
  have hline : EndsLine [] := Follows.endsLine (.inl rfl)
  apply readsAs_of_takes .name ⟨" n".toList, rfl⟩
  apply ((takes_after_blank "name:" (solid_name hname hline)
    (takes_text hname (by simp) hline)).map (W := fun x ↦ SameSection (.name ['n']) x) ?_).rule
  rintro ⟨t, sp⟩ rfl
  exact .name rfl

private theorem readsAs_states {ds : Digits} (h : IsNumeral ds) :
    ReadsAs ("states: ".toList ++ ds) (.states ⟨ds, ⟨0, 0⟩⟩) := by
  apply readsAs_of_takes .states ⟨' ' :: ds, rfl⟩
  apply ((takes_after_blank "states:" (solid_numeral h [])
    (takes_countText h refuses_digit_nil)).map
    (W := fun x ↦ SameSection (.states ⟨ds, ⟨0, 0⟩⟩) x) ?_).rule
  intro d hd
  exact .states hd.symm

private theorem readsAs_start {q : StateText} (h : IsNumeral q.digits) :
    ReadsAs ("start: ".toList ++ q.spelled) (.start ⟨q.digits, ⟨0, 0⟩⟩) := by
  apply readsAs_of_takes .start ⟨' ' :: q.spelled, rfl⟩
  apply ((takes_after_blank "start:" (solid_state h [])
    (takes_stateText h refuses_digit_nil)).map
    (W := fun x ↦ SameSection (.start ⟨q.digits, ⟨0, 0⟩⟩) x) ?_).rule
  intro d hd
  exact .start hd.symm

/-- A list of one part, where the text ends. -/
theorem takes_list_one {α : Type} {e : Grammar.Expr α} {V : α → Prop} (hr : e.reads = true)
    (hs : Solid w) (h : e.Takes w [] V) :
    (Grammar.list e).Takes w [] fun as ↦ ∃ a, as = [a] ∧ V a := by
  have hgap : (Grammar.gap.right e).reads = true := Peg.reads_right _ hr
  have hs' : Solid (w ++ []) := by rwa [List.append_nil]
  have hmany := Takes.many_cons (w := []) hgap (takes_gap_right hs' h)
    (Takes.many_nil (Refuses.nil hgap))
  rw [List.append_nil] at hmany
  apply (takes_list_of_many hr hs' hmany).mono
  rintro _ ⟨a, _, rfl, ha, rfl⟩
  exact ⟨a, rfl, ha⟩

private theorem readsAs_rule {state next : StateText} (hstate : IsNumeral state.digits)
    (hnext : IsNumeral next.digits) :
    ReadsAs ("transitions:\n".toList ++
        spelledRule state Numbers.letter next Numbers.letter .moveRight)
      (.transitions [⟨⟨⟨state.digits, ⟨0, 0⟩⟩, ⟨'a', ⟨0, 0⟩⟩, ⟨next.digits, ⟨0, 0⟩⟩,
        ⟨'a', ⟨0, 0⟩⟩, ⟨'R', ⟨0, 0⟩⟩⟩, ⟨0, 0⟩⟩]) := by
  have hletter : Numbers.letter.char ≠ '\'' := by decide
  have hsymbol {c : Located Char} (h : readSymbol c = .ok Numbers.letter) : 'a' = c.value := by
    have hread : Inspects [] _ (·.char = c.value) (readSymbol c) := inspects_readSymbol c
    rw [h] at hread
    exact hread.2
  have haction {c : Located Char} (h : readAction c = .ok .moveRight) : 'R' = c.value := by
    have hread : Inspects [] _ (·.code = c.value) (readAction c) := inspects_readAction c
    rw [h] at hread
    exact hread.2
  have hbreak {a : Char} {rest : List Char} (h : ('(' :: rest).head? = some a) :
      Grammar.isBreak a = false := by
    obtain rfl := Option.some.inj h
    rfl
  have hline := takes_onLine (solid_cons (by decide) _) (fun _ ↦ hbreak)
    (takes_ruleText state next hstate hnext hletter hletter .moveRight [])
  apply readsAs_of_takes .transitions ⟨'\n' :: _, rfl⟩
  apply ((takes_after "transitions:" (solid_cons (by decide) _)
    (takes_list_one rfl (solid_cons (by decide) _) hline)).map
    (W := fun x ↦ SameSection (.transitions _) x) ?_).rule
  rintro _ ⟨t, rfl, h₁, h₂, h₃, h₄, h₅⟩
  exact .transitions (.cons ⟨h₁.symm, hsymbol h₂, h₃.symm, hsymbol h₄, haction h₅⟩ .nil)

private theorem readsAs_run {head : PositionText} (h : IsNumeral head.digits) :
    ReadsAs ("runs:\n\"a\" @ ".toList ++ head.spelled)
      (.runs [⟨⟨['a'], ⟨0, 0⟩⟩, ⟨head, ⟨0, 0⟩⟩⟩]) := by
  let tape : Tape := ⟨#[Numbers.letter]⟩
  have htape : ∀ s ∈ tape.toList, s.char ≠ '"' := by decide
  have hread {t : Located (List Char)} (h : readTape t = .ok tape) : ['a'] = t.value := by
    have hread : Inspects [] _ (·.toList.map Symbol.char = t.value) (readTape t) :=
      inspects_readTape t
    rw [h] at hread
    exact hread.2
  have hbreak {a : Char} {rest : List Char} (h : ('"' :: rest).head? = some a) :
      Grammar.isBreak a = false := by
    obtain rfl := Option.some.inj h
    rfl
  have hline : ((Grammar.pair Grammar.breaks Grammar.run).map fun r ↦ r.2.value).Takes _ []
      fun t ↦ SameRun ⟨⟨['a'], ⟨0, 0⟩⟩, ⟨head, ⟨0, 0⟩⟩⟩ t :=
    (takes_pair (solid_cons (by decide) _)
      (takes_breaks (solid_cons (by decide) _) fun _ ↦ hbreak)
      (takes_runText htape h (Follows.endsLine (.inl rfl)))).map
      fun _ ⟨_, h₁, h₂⟩ ↦ ⟨hread h₁, h₂.symm⟩
  apply readsAs_of_takes .runs ⟨'\n' :: _, rfl⟩
  apply ((takes_after "runs:" (solid_cons (by decide) _)
    (takes_list_one rfl (solid_cons (by decide) _) hline)).map
    (W := fun x ↦ SameSection (.runs _) x) ?_).rule
  rintro _ ⟨t, rfl, ht⟩
  exact .runs (.cons ht .nil)

variable {x : Numbers}

/-- The file has its sections. -/
theorem sections_specimen (h : x.AreNumerals) :
    ∃ secs, sections (Text.trim x.file.toList) = .ok secs ∧
      List.Forall₂ (fun s y ↦ SameSection s y.value) x.sections secs := by
  have hblocks : List.Forall₂ ReadsAs x.blocks x.sections :=
    .cons readsAs_name <| .cons (readsAs_states h.states) <| .cons (readsAs_start h.start) <|
      .cons (readsAs_rule h.state h.next) <| .cons (readsAs_run h.head) .nil
  have htrim : Text.trim x.file.toList = ['\n'].intercalate x.blocks := by
    rw [Numbers.file, String.toList_ofList]
    apply Text.trim_of_trimmed
    obtain ⟨d, hd, hblank⟩ := getLast_spelled h.head
    constructor
    · rintro c ⟨⟩
      rfl
    · intro c hc
      have hlast : (['\n'].intercalate x.blocks).getLast? = some d := by
        simp [Numbers.blocks, List.intercalate_cons_cons, List.getLast?_append,
          List.getLast?_cons, hd]
      obtain rfl := Option.some.inj (hlast.symm.trans hc)
      exact hblank
  rw [htrim]
  exact sections_intercalate hblocks (List.cons_ne_nil _ _)

/-! ### What becomes of it -/

/-- The program of a name, a number of states, a start, a rule and an input. -/
theorem programOf_five {s₁ s₂ s₃ s₄ s₅ : Span} {t : List Char} {n q : Located Digits}
    {r : Located RuleText} {run : RunText} :
    programOf [⟨.name t, s₁⟩, ⟨.states n, s₂⟩, ⟨.start q, s₃⟩, ⟨.transitions [r], s₄⟩,
        ⟨.runs [run], s₅⟩] = do
      let n ← readCount n
      let q ← readState q
      let r ← readRule r
      let run ← readRun run
      let p : Program := ⟨String.ofList (Text.trim t), .normal, (((Machine.blank n q).addSymbol
        r.value.trigger.symbol).addSymbol r.value.transition.write).define r.value, [run]⟩
      return (p, p.findings.map .finding) := by
  rw [programOf, Draft.ofSections]
  simp only [List.foldlM_cons, Draft.add, Draft.say, List.mapM_cons]
  cases readCount n with
  | error e => rfl
  | ok n =>
    cases readState q with
    | error e => rfl
    | ok q =>
      cases readRule r with
      | error e => rfl
      | ok r =>
        cases readRun run with
        | error e => rfl
        | ok run => rfl

/-- The rule of the file is read if its numbers can be. -/
theorem readRule_of_sameValue {r : Located RuleText}
    (hsymbol : SameValue ⟨'a', ⟨0, 0⟩⟩ r.value.symbol)
    (hwrite : SameValue ⟨'a', ⟨0, 0⟩⟩ r.value.write)
    (haction : SameValue ⟨'R', ⟨0, 0⟩⟩ r.value.action) : readRule r = do
      let state ← readState r.value.state
      let next ← readState r.value.next
      return ⟨⟨⟨state, Numbers.letter⟩, ⟨next, Numbers.letter, .moveRight⟩⟩, r.span⟩ := by
  rw [readRule, readSymbol_of_sameValue (s := Numbers.letter) hsymbol rfl,
    readSymbol_of_sameValue (s := Numbers.letter) hwrite rfl,
    readAction_of_sameValue (x := .moveRight) haction rfl]
  rfl

/-- Sections that are those of the file but for their places make its program if all numbers can be
read. -/
theorem exists_programOf_eq {secs : List (Located Section)}
    (h : List.Forall₂ (fun s y ↦ SameSection s y.value) x.sections secs) :
    ∃ s₁ s₂ s₃ s₄ s₅ : Span, programOf secs = do
      let n ← readCount ⟨x.states, s₁⟩
      let q ← readState ⟨x.start.digits, s₂⟩
      let state ← readState ⟨x.state.digits, s₃⟩
      let next ← readState ⟨x.next.digits, s₄⟩
      let head ← readPosition ⟨x.head, s₅⟩
      let p : Program := ⟨"n", .normal, ((Machine.blank n q).addSymbol Numbers.letter).define
        ⟨⟨state, Numbers.letter⟩, ⟨next, Numbers.letter, .moveRight⟩⟩,
        [⟨⟨#[Numbers.letter]⟩, head⟩]⟩
      return (p, p.findings.map .finding) := by
  obtain _ | ⟨hname, _ | ⟨hstates, _ | ⟨hstart, _ | ⟨hrules, _ | ⟨hruns, _ | _⟩⟩⟩⟩⟩ := h
  next y₁ y₂ y₃ y₄ y₅ =>
  obtain ⟨_, _⟩ := y₁
  obtain ⟨_, _⟩ := y₂
  obtain ⟨_, _⟩ := y₃
  obtain ⟨_, _⟩ := y₄
  obtain ⟨_, _⟩ := y₅
  cases hname with | name htrim => ?_
  cases hstates with | @states _ n hn => ?_
  cases hstart with | @start _ q hq => ?_
  cases hrules with | transitions hrules => ?_
  cases hruns with | runs hruns => ?_
  cases hrules with | @cons _ r _ _ hr hnone => ?_
  cases hruns with | @cons _ run _ _ hrun hnone' => ?_
  cases hnone
  cases hnone'
  obtain ⟨ds, s₁⟩ := n
  obtain ⟨ds', s₂⟩ := q
  obtain ⟨⟨⟨state, s₃⟩, symbol, ⟨next, s₄⟩, write, action⟩, _⟩ := r
  obtain ⟨tape, ⟨head, s₅⟩⟩ := run
  obtain rfl : x.states = ds := hn
  obtain rfl : x.start.digits = ds' := hq
  obtain rfl : x.state.digits = state := hr.state
  obtain rfl : x.next.digits = next := hr.next
  obtain rfl : x.head = head := hrun.position
  refine ⟨s₁, s₂, s₃, s₄, s₅, ?_⟩
  rw [programOf_five, readRule_of_sameValue hr.symbol hr.write hr.action, readRun,
    readTape_of_sameValue (t := ⟨#[Numbers.letter]⟩) hrun.tape rfl, ← htrim]
  simp only [bind_assoc, pure_bind]
  rfl

/-- The numbers without a sign are within their limits. -/
structure Numbers.CountsFit (x : Numbers) : Prop where
  states : decimal x.states ≤ 2 ^ 64 - 1
  start : decimal x.start.digits ≤ 2 ^ 64 - 1
  state : decimal x.state.digits ≤ 2 ^ 64 - 1
  next : decimal x.next.digits ≤ 2 ^ 64 - 1

/-- The file is read as the program with the decimal values of its numbers, or refused for the first
of them that is beyond its limits. -/
theorem parse_specimen (h : x.AreNumerals) :
    (x.CountsFit → FitsSigned x.head.number →
      parse x.file = .ok (x.program, x.program.findings.map .finding)) ∧
    (¬x.CountsFit → ∃ span, parse x.file = .error (.faulty .numberTooLarge span)) ∧
    (x.CountsFit → ¬FitsSigned x.head.number →
      ∃ span, parse x.file = .error (.faulty x.head.overflow span)) := by
  obtain ⟨secs, hsecs, hsame⟩ := sections_specimen h
  obtain ⟨s₁, s₂, s₃, s₄, s₅, hprogram⟩ := exists_programOf_eq hsame
  have hparse : parse x.file = programOf secs := by
    rw [parse, hsecs]
    rfl
  simp only [readCount_eq, readState_eq, readPosition_eq] at hprogram
  rw [hparse, hprogram]
  refine ⟨fun hc hhead ↦ ?_, fun hc ↦ ?_, fun hc hhead ↦ ?_⟩
  · rw [if_pos hc.states, if_pos hc.start, if_pos hc.state, if_pos hc.next, if_pos hhead]
    rfl
  · by_cases h₁ : decimal x.states ≤ 2 ^ 64 - 1
    · by_cases h₂ : decimal x.start.digits ≤ 2 ^ 64 - 1
      · by_cases h₃ : decimal x.state.digits ≤ 2 ^ 64 - 1
        · have h₄ : ¬decimal x.next.digits ≤ 2 ^ 64 - 1 := fun h₄ ↦ hc ⟨h₁, h₂, h₃, h₄⟩
          rw [if_pos h₁, if_pos h₂, if_pos h₃, if_neg h₄]
          exact ⟨s₄, rfl⟩
        · rw [if_pos h₁, if_pos h₂, if_neg h₃]
          exact ⟨s₃, rfl⟩
      · rw [if_pos h₁, if_neg h₂]
        exact ⟨s₂, rfl⟩
    · rw [if_neg h₁]
      exact ⟨s₁, rfl⟩
  · rw [if_pos hc.states, if_pos hc.start, if_pos hc.state, if_pos hc.next, if_neg hhead]
    exact ⟨s₅, rfl⟩

/-! ### All numerals -/

/-- Numbers in definition files are exact up to the limits of words of 64 bits, whatever the length
of their digits and the zeros in front.

Before everything that is no digit, digits are read whole: as a number, as a state with or without
its letter, and as a head position with or without a minus sign. What is read has the decimal value
of the digits if that is within the limits, and is refused otherwise, a head position on the side of
its sign. So no file is refused for a number within the limits, every file with a number beyond them
is refused, for that number if no part before it is at fault, and the numbers of an accepted file
have their decimal values. And there is a file with any numerals in all these places. -/
theorem numerals_are_exact :
    (∀ ds, IsNumeral ds → ∀ rest, StartsOutside Char.isDigit rest → ReadExactly ds rest) ∧
    (∀ source secs, sections (Text.trim source.toList) = .ok secs → NumbersExact source secs) ∧
    (∀ x : Numbers, x.AreNumerals →
      (x.CountsFit → FitsSigned x.head.number →
        parse x.file = .ok (x.program, x.program.findings.map .finding)) ∧
      (¬x.CountsFit → ∃ span, parse x.file = .error (.faulty .numberTooLarge span)) ∧
      (x.CountsFit → ¬FitsSigned x.head.number →
        ∃ span, parse x.file = .error (.faulty x.head.overflow span))) ∧
    Fault.numberTooLarge.message = "Invalid number: number too large to fit in target type" ∧
    Fault.headTooLarge.message =
      "Invalid head position: number too large to fit in target type" ∧
    Fault.headTooSmall.message =
      "Invalid head position: number too small to fit in target type" :=
  ⟨fun _ h _ hrest ↦ readExactly h hrest, fun _ _ h ↦ numbersExact_of_sections h,
    fun _ h ↦ parse_specimen h, rfl, rfl, rfl⟩

/-- The greatest count with zeros in front is accepted everywhere, with the least head position; the
number of this position without its sign is refused. -/
theorem numerals_are_exact_at_limits :
    let count := "0018446744073709551615".toList
    let head := "9223372036854775808".toList
    let x (negative : Bool) : Numbers :=
      ⟨count, ⟨true, count⟩, ⟨false, count⟩, ⟨true, count⟩, ⟨negative, head⟩⟩
    ((x true).AreNumerals ∧ (x true).CountsFit ∧ FitsSigned (x true).head.number ∧
      ¬FitsSigned (x false).head.number) ∧
    parse (x true).file = .ok ((x true).program, (x true).program.findings.map .finding) ∧
    (x true).program.machine.numStates = 2 ^ 64 - 1 ∧
    (x true).program.runs.map Run.head = [-2 ^ 63] ∧
    ∃ span, parse (x false).file = .error (.faulty .headTooLarge span) := by
  intro count head x
  obtain ⟨-, -, hfile, -⟩ := numerals_are_exact
  have hcount : IsNumeral count := ⟨by decide, List.all_eq_true.mp (by decide)⟩
  have hhead : IsNumeral head := ⟨by decide, List.all_eq_true.mp (by decide)⟩
  have hnumerals (negative : Bool) : (x negative).AreNumerals :=
    ⟨hcount, hcount, hcount, hcount, hhead⟩
  have hvalue : decimal count = 2 ^ 64 - 1 := by
    rw [← Text.ofDigits_eq_decimal]
    decide
  have hnumber (negative : Bool) :
      (x negative).head.number = if negative then -2 ^ 63 else 2 ^ 63 := by
    rw [← signed_eq_number]
    cases negative <;> decide
  have hcounts (negative : Bool) : (x negative).CountsFit := by
    constructor <;> exact hvalue.le
  have hfits : FitsSigned (x true).head.number := by
    rw [hnumber]
    decide
  have hbeyond : ¬FitsSigned (x false).head.number := by
    rw [hnumber]
    decide
  refine ⟨⟨hnumerals true, hcounts true, hfits, hbeyond⟩,
    (hfile _ (hnumerals true)).1 (hcounts true) hfits, hvalue, ?_,
    (hfile _ (hnumerals false)).2.2 (hcounts false) hbeyond⟩
  exact congrArg (fun n ↦ [n]) (hnumber true)

end TapeMachine.Definition
