import Mathlib.Data.List.Pairwise
import TapeMachine.Proofs.Definition.Verdict
import TapeMachine.Proofs.Definition.Words
import TapeMachine.Proofs.Text.Decimal

/-!
# Numbers in definition files

A number in a definition file is read as its decimal value if that is within the limits of its
place, and is a part at fault otherwise. The limits are those of words of 64 bits, without a sign
for counts and states and with one for head positions; a reader that adds up in words finds the same
(`readCount_eq_addUp`, `readPosition_eq_addUpSigned`). What becomes of a file depends on nothing
else about its numbers (`numbersExact_of_sections`).
-/

namespace TapeMachine.Definition

open Text (IsNumeral StartsOutside decimal)

/-! ### Readers -/

/-- The number of a head position. -/
def PositionText.number (t : PositionText) : Int :=
  if t.negative then -(decimal t.digits : Int) else decimal t.digits

theorem signed_eq_number (t : PositionText) : Text.signed t.negative t.digits = t.number := by
  rw [Text.signed, PositionText.number, Text.ofDigits_eq_decimal]

/-- A number is read exactly, up to the greatest word without a sign. -/
theorem readCount_eq (d : Located Digits) :
    readCount d = if decimal d.value ≤ 2 ^ 64 - 1 then .ok (decimal d.value)
      else .error (.faulty .numberTooLarge d.span) := by
  have hmax : maxCount = 2 ^ 64 - 1 := rfl
  rw [readCount, Text.count?, Text.ofDigits_eq_decimal, hmax]
  by_cases h : decimal d.value ≤ 2 ^ 64 - 1
  · rw [if_pos h, if_pos h]
  · rw [if_neg h, if_neg h]

/-- A state is read exactly, up to the greatest word without a sign. -/
theorem readState_eq (d : Located Digits) :
    readState d = if decimal d.value ≤ 2 ^ 64 - 1 then .ok ⟨decimal d.value⟩
      else .error (.faulty .numberTooLarge d.span) := by
  rw [readState, readCount_eq]
  split <;> rfl

/-- A number is within the words with a sign. -/
def FitsSigned (n : Int) : Prop := -2 ^ 63 ≤ n ∧ n ≤ 2 ^ 63 - 1

instance (n : Int) : Decidable (FitsSigned n) := inferInstanceAs (Decidable (_ ∧ _))

theorem fitsSigned_iff {n : Int} : minPosition ≤ n ∧ n ≤ maxPosition ↔ FitsSigned n := Iff.rfl

/-- The fault of a head position that is no word, which is on the side of its sign. -/
def PositionText.overflow (t : PositionText) : Fault :=
  if t.negative then .headTooSmall else .headTooLarge

theorem PositionText.lt_iff (t : PositionText) :
    (t.number < minPosition ↔ ¬FitsSigned t.number ∧ t.negative = true) ∧
      (maxPosition < t.number ↔ ¬FitsSigned t.number ∧ t.negative = false) := by
  rw [← fitsSigned_iff, number, minPosition, maxPosition]
  cases t.negative with
  | true =>
    simp only [if_true, and_true, Bool.true_eq_false, and_false, iff_false]
    constructor <;> omega
  | false =>
    simp only [Bool.false_eq_true, if_false, and_true, and_false, iff_false]
    constructor <;> omega

/-- A head position is read exactly within the words with a sign. -/
theorem readPosition_eq (p : Located PositionText) :
    readPosition p = if FitsSigned p.value.number then .ok p.value.number
      else .error (.faulty p.value.overflow p.span) := by
  obtain ⟨hlow, hhigh⟩ := p.value.lt_iff
  simp only [readPosition, signed_eq_number, hlow, hhigh, PositionText.overflow]
  by_cases hfits : FitsSigned p.value.number
  · simp [hfits]
  · cases p.value.negative <;> simp [hfits]

/-- Zeros in front of a number change nothing, however many they are. -/
theorem readCount_zeros (n : Nat) (ds : Digits) (span : Span) :
    readCount ⟨List.replicate n '0' ++ ds, span⟩ = readCount ⟨ds, span⟩ := by
  rw [readCount_eq, readCount_eq, Text.decimal_zeros]

/-- Zeros in front of a head position change nothing, with and without a minus sign. -/
theorem readPosition_zeros (n : Nat) (negative : Bool) (ds : Digits) (span : Span) :
    readPosition ⟨⟨negative, List.replicate n '0' ++ ds⟩, span⟩ =
      readPosition ⟨⟨negative, ds⟩, span⟩ := by
  have hnumber : PositionText.number ⟨negative, List.replicate n '0' ++ ds⟩ =
      PositionText.number ⟨negative, ds⟩ := by
    rw [PositionText.number, PositionText.number, Text.decimal_zeros]
  rw [readPosition_eq, readPosition_eq, hnumber]
  rfl

/-- A reader that adds up the digits of a number in words reads the same. -/
theorem readCount_eq_addUp (d : Located Digits) :
    readCount d = ((Text.addUp d.value).map .ok).getD
      (.error (.faulty .numberTooLarge d.span)) := by
  rw [Text.addUp_eq_count?, readCount]
  cases Text.count? d.value <;> rfl

/-- A reader that adds up the digits of a head position in words, upwards or downwards, reads the
same. -/
theorem readPosition_eq_addUpSigned (p : Located PositionText) :
    readPosition p = ((Text.addUpSigned p.value.negative p.value.digits).map .ok).getD
      (.error (.faulty p.value.overflow p.span)) := by
  rw [Text.addUpSigned_eq, signed_eq_number, readPosition_eq]
  simp only [fitsSigned_iff]
  split <;> rfl

/-! ### Words -/

/-- Digits before a text are read whole, and exactly if they can be: as a number, as a state with or
without its letter, and as a head position with or without a minus sign. -/
structure ReadExactly (ds : Digits) (rest : List Char) : Prop where
  count : Grammar.count.Takes ds rest fun d ↦ d.value = ds ∧
    readCount d = if decimal ds ≤ 2 ^ 64 - 1 then .ok (decimal ds)
      else .error (.faulty .numberTooLarge d.span)
  state : ∀ letter, Grammar.state.Takes (StateText.spelled ⟨letter, ds⟩) rest fun d ↦
    d.value = ds ∧ readState d = if decimal ds ≤ 2 ^ 64 - 1 then .ok ⟨decimal ds⟩
      else .error (.faulty .numberTooLarge d.span)
  position : Grammar.position.Takes ds rest fun p ↦ p.value = ⟨false, ds⟩ ∧
    readPosition p = if (decimal ds : Int) ≤ 2 ^ 63 - 1 then .ok (decimal ds)
      else .error (.faulty .headTooLarge p.span)
  negative : Grammar.position.Takes ('-' :: ds) rest fun p ↦ p.value = ⟨true, ds⟩ ∧
    readPosition p = if -2 ^ 63 ≤ -(decimal ds : Int) then .ok (-decimal ds)
      else .error (.faulty .headTooSmall p.span)

/-- Digits are read exactly before everything that is no digit. -/
theorem readExactly {ds : Digits} (h : IsNumeral ds) {rest : List Char}
    (hrest : StartsOutside Char.isDigit rest) : ReadExactly ds rest := by
  have hdigit : Grammar.digit.Refuses rest := .satisfying hrest
  constructor
  case count =>
    apply (takes_countText h hdigit).mono
    rintro ⟨_, span⟩ rfl
    exact ⟨rfl, readCount_eq _⟩
  case state =>
    intro letter
    apply (takes_stateText (q := ⟨letter, ds⟩) h hdigit).mono
    rintro ⟨_, span⟩ rfl
    exact ⟨rfl, readState_eq _⟩
  case position =>
    apply (takes_positionText (t := ⟨false, ds⟩) h hdigit).mono
    rintro ⟨_, span⟩ rfl
    have hfits : FitsSigned (decimal ds) ↔ (decimal ds : Int) ≤ 2 ^ 63 - 1 :=
      and_iff_right (by omega)
    refine ⟨rfl, (readPosition_eq _).trans ?_⟩
    exact if_congr hfits rfl rfl
  case negative =>
    apply (takes_positionText (t := ⟨true, ds⟩) h hdigit).mono
    rintro ⟨_, span⟩ rfl
    have hfits : FitsSigned (-decimal ds) ↔ -2 ^ 63 ≤ -(decimal ds : Int) :=
      and_iff_left (by omega)
    refine ⟨rfl, (readPosition_eq _).trans ?_⟩
    exact if_congr hfits rfl rfl

/-! ### Parts -/

/-- What is wrong with a part that is a number beyond the limits of its place. -/
def Part.overflow? : Part → Option Fault
  | .number ds => if decimal ds ≤ 2 ^ 64 - 1 then none else some .numberTooLarge
  | .position t => if FitsSigned t.number then none else some t.overflow
  | .heading _ | .symbol _ | .letter _ | .tape _ => none

/-- The fault is that a number is beyond its limits. -/
def Fault.isOverflow : Fault → Bool
  | .numberTooLarge | .headTooLarge | .headTooSmall => true
  | .repeatedSection _ | .repeatedRule _ | .invalidSymbol _ | .invalidAction _ => false

variable {secs : List (Located Section)} {p q : Located Part} {fault : Fault}

/-- A number beyond the limits is at fault. -/
theorem atFault_of_overflow (h : p.value.overflow? = some fault) : AtFault secs p fault := by
  obtain ⟨part, span⟩ := p
  cases part with
  | heading | symbol | letter | tape => cases h
  | number ds =>
    simp only [Part.overflow?] at h
    split at h
    · cases h
    · next hds =>
      obtain rfl := Option.some.inj h
      refine .number ?_
      rw [Text.ofDigits_eq_decimal]
      exact Nat.lt_of_not_le hds
  | position t =>
    simp only [Part.overflow?] at h
    split at h
    · cases h
    · next ht =>
      obtain rfl := Option.some.inj h
      obtain ⟨hlow, hhigh⟩ := t.lt_iff
      rw [PositionText.overflow]
      cases hneg : t.negative with
      | true => exact .headTooSmall (signed_eq_number t ▸ hlow.mpr ⟨ht, hneg⟩)
      | false => exact .headTooLarge (signed_eq_number t ▸ hhigh.mpr ⟨ht, hneg⟩)

/-- No other part has such a fault. -/
theorem overflow_of_atFault (h : AtFault secs p fault) (hover : fault.isOverflow = true) :
    p.value.overflow? = some fault := by
  cases h with
  | heading | symbol | letter | tape => cases hover
  | number hds =>
    rw [Text.ofDigits_eq_decimal] at hds
    exact if_neg (Nat.not_le_of_lt hds)
  | @headTooSmall t _ ht =>
    rw [signed_eq_number, t.lt_iff.1] at ht
    simp only [Part.overflow?, if_neg ht.1, PositionText.overflow, if_pos ht.2]
  | @headTooLarge t _ ht =>
    rw [signed_eq_number, t.lt_iff.2] at ht
    simp [Part.overflow?, if_neg ht.1, PositionText.overflow, ht.2]

/-! ### Files -/

/-- All numbers of the sections have their decimal values in the program. -/
structure Denotes (secs : List (Located Section)) (p : Program) : Prop where
  states : ∀ s ∈ secs, ∀ d, s.value = .states d → p.machine.numStates = decimal d.value
  start : ∀ s ∈ secs, ∀ d, s.value = .start d → p.machine.start = ⟨decimal d.value⟩
  rules : ∀ s ∈ secs, ∀ ts, s.value = .transitions ts → ∃ rules : List (Located Rule),
    List.Forall₂ (fun t r ↦ ShowsRule t r ∧
      r.value.trigger.state = ⟨decimal t.value.state.value⟩ ∧
      r.value.transition.next = ⟨decimal t.value.next.value⟩) ts rules ∧
    p.machine.table = tableOf (rules.map Located.value)
  heads : ∀ s ∈ secs, ∀ ts, s.value = .runs ts →
    List.Forall₂ (fun t r ↦ ShowsRun t r ∧ r.head = t.position.value.number) ts p.runs

/-- What the numbers of its sections have to do with what becomes of a file. -/
structure NumbersExact (source : String) (secs : List (Located Section)) : Prop where
  /-- The file is never refused for a number within the limits. -/
  within : ∀ p ∈ partsOf secs, p.value.overflow? = none → ∀ fault, fault.isOverflow = true →
    parse source ≠ .error (.faulty fault p.span)
  /-- It is refused if there is a number beyond the limits, for that or for a part before it. -/
  beyond : ∀ p ∈ partsOf secs, ∀ fault, p.value.overflow? = some fault →
    ∃ q ∈ partsOf secs, ∃ fault', AtFault secs q fault' ∧ q.span.start ≤ p.span.start ∧
      parse source = .error (.faulty fault' q.span)
  /-- A number beyond the limits is what it is refused for if no part before it is at fault. -/
  first : ∀ p ∈ partsOf secs, ∀ fault, p.value.overflow? = some fault →
    (∀ q ∈ partsOf secs, ∀ fault', AtFault secs q fault' → p.span.start ≤ q.span.start) →
    parse source = .error (.faulty fault p.span)
  /-- If it is accepted, all its numbers have their decimal values. -/
  denotes : ∀ program warnings, parse source = .ok (program, warnings) → Denotes secs program

/-- What becomes of a file with these sections is the verdict on them. -/
theorem parse_eq_iff_of_sections {source : String}
    (h : sections (Text.trim source.toList) = .ok secs) :
    InOrder secs ∧ ∀ x, parse source = x ↔ Verdict secs x := by
  obtain ⟨last, ho⟩ := (Peg.read_eq_ok_iff rfl).mp (eq_ok_of_mapError_eq_ok h)
  have hasc : InOrder secs := (ascends_file _ _ _ ho).ascending
  have hparse : parse source = programOf secs := by
    rw [parse, h]
    rfl
  refine ⟨hasc, fun x ↦ ?_⟩
  rw [hparse]
  constructor
  · rintro rfl
    obtain ⟨x, hx⟩ := exists_verdict hasc
    rwa [hx.programOf_eq hasc]
  · exact Verdict.programOf_eq hasc

/-- Different parts begin at different places. -/
theorem InOrder.eq_of_start_eq (hasc : InOrder secs) (hp : p ∈ partsOf secs)
    (hq : q ∈ partsOf secs) (h : p.span.start = q.span.start) : p = q := by
  have hne : (partsOf secs).Pairwise fun p q ↦ p.span.start ≠ q.span.start :=
    hasc.imp Nat.ne_of_lt
  have hsymm : Std.Symm fun p q : Located Part ↦ p.span.start ≠ q.span.start :=
    ⟨fun _ _ h ↦ h.symm⟩
  by_contra hpq
  exact hne.forall hp hq hpq h

/-- A program that describes a draft has the numbers of the sections that the draft gathers. -/
theorem Describes.denotes {d : Draft} {rules : List (Located Rule)} {program : Program}
    (h : Describes d rules program) (hd : d.Gathers secs) : Denotes secs program where
  states s hs c hc := by
    have hheld := hd.held s hs
    rw [hc, Section.HeldBy, h.states, Text.ofDigits_eq_decimal] at hheld
    exact Option.some.inj hheld
  start s hs c hc := by
    have hheld := hd.held s hs
    rw [hc, Section.HeldBy, Text.ofDigits_eq_decimal] at hheld
    rw [h.start, hheld]
    rfl
  rules s hs ts hts := by
    have hheld := hd.held s hs
    rw [hts] at hheld
    obtain ⟨rules', hrules', hshows⟩ := hheld
    obtain rfl : rules = rules' := Option.some.inj (h.rules.symm.trans hrules')
    have htable : program.machine.table = tableOf (rules.map Located.value) := by
      rw [h.unique (describes_described h.name h.states h.rules)]
      rfl
    refine ⟨rules, hshows.imp ?_, htable⟩
    intro t r htr
    exact ⟨htr, by rw [htr.state, Text.ofDigits_eq_decimal],
      by rw [htr.next, Text.ofDigits_eq_decimal]⟩
  heads s hs ts hts := by
    have hheld := hd.held s hs
    rw [hts] at hheld
    obtain ⟨runs, hruns, hshows⟩ := hheld
    rw [h.runs, hruns]
    exact hshows.imp fun t r htr ↦ ⟨htr, htr.head.trans (signed_eq_number t.position.value)⟩

/-- The numbers of a file are read exactly. -/
theorem numbersExact_of_sections {source : String}
    (h : sections (Text.trim source.toList) = .ok secs) : NumbersExact source secs := by
  obtain ⟨hasc, hverdict⟩ := parse_eq_iff_of_sections h
  -- The part that is refused is the one that begins first among those at fault.
  have hbeyond : ∀ p ∈ partsOf secs, ∀ fault, p.value.overflow? = some fault →
      ∃ q ∈ partsOf secs, ∃ fault', AtFault secs q fault' ∧ q.span.start ≤ p.span.start ∧
        parse source = .error (.faulty fault' q.span) := by
    intro p hp fault hover
    have hfault : AtFault secs p fault := atFault_of_overflow hover
    have hx := (hverdict _).mp rfl
    generalize hparse : parse source = x at hx
    cases hx with
    | faulty hq hqfault hfirst => exact ⟨_, hq, _, hqfault, hfirst p hp fault hfault, rfl⟩
    | missing hsound | repeatedRule hsound | finding hsound | accepted hsound =>
      exact absurd hfault (hsound p hp fault)
  constructor
  case within =>
    intro p hp hnone fault hover hparse
    have hx := (hverdict _).mp hparse
    generalize hspan : p.span = span at hx
    cases hx with
    | @faulty q _ hq hqfault _ =>
      obtain rfl := hasc.eq_of_start_eq hp hq (congrArg Span.start hspan)
      rw [overflow_of_atFault hqfault hover] at hnone
      cases hnone
    | repeatedRule => cases hover
  case beyond => exact hbeyond
  case first =>
    intro p hp fault hover hbefore
    obtain ⟨q, hq, fault', hqfault, hle, hparse⟩ := hbeyond p hp fault hover
    have hstart := Nat.le_antisymm hle (hbefore q hq fault' hqfault)
    obtain rfl := hasc.eq_of_start_eq hq hp hstart
    rw [hparse, hqfault.unique (atFault_of_overflow hover)]
  case denotes =>
    intro program warnings hparse
    cases (hverdict _).mp hparse with
    | accepted _ hd hdescribes _ => exact hdescribes.denotes hd

end TapeMachine.Definition
