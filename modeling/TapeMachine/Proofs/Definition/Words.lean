import TapeMachine.Proofs.Definition.Writable
import TapeMachine.Proofs.Peg.Reading
import TapeMachine.Proofs.Text.Numeral

/-!
# Words of definition files

Gaps, line breaks and the smallest parts of sections: each production reads what is written for it
and gives back what was meant, whatever symbols, tapes and names may look like. What comes next must
not be taken for a part of it: behind a number there is no digit, behind a name the line ends.
-/

namespace TapeMachine.Definition

open Peg (Takes Refuses)
open Text (IsNumeral isNumeral_digits ofDigits_digits)

variable {α β γ ι : Type} {e : Grammar.Expr α} {f : Grammar.Expr β} {v w rest text : List Char}
  {V : α → Prop} {W : β → Prop}

/-! ### Gaps -/

/-- No gap begins here: neither a blank nor a comment. -/
structure Solid (text : List Char) : Prop where
  blank : Grammar.blank.Refuses text
  comment : Grammar.comment.Refuses text

/-- A text is solid if it begins neither with a blank nor with two slashes. -/
theorem solid_of_head (h : ∀ a, text.head? = some a → a ≠ ' ' ∧ a ≠ '\t')
    (hc : ¬"//".toList <+: text) : Solid text := by
  constructor
  · refine .satisfying fun a ha ↦ ?_
    simp [h a ha]
  · exact (Refuses.literal hc).right _

/-- A text is solid if its first character begins no gap. -/
theorem solid_cons {a : Char} (h : a ≠ ' ' ∧ a ≠ '\t' ∧ a ≠ '/') (rest : List Char) :
    Solid (a :: rest) := by
  apply solid_of_head
  · intro b hb
    obtain rfl := Option.some.inj hb
    exact ⟨h.1, h.2.1⟩
  · intro hp
    have hp' : ['/', '/'] <+: a :: rest := hp
    exact h.2.2 (List.cons_prefix_cons.mp hp').1.symm

/-- Nothing is no gap. -/
theorem solid_nil : Solid [] := solid_of_head (by simp) (by decide)

/-- A gap reads blanks and tabs before a solid text. -/
theorem takes_gap (hw : ∀ a ∈ w, a = ' ' ∨ a = '\t') (h : Solid rest) :
    Grammar.gap.Takes w rest fun _ ↦ True := by
  have hblanks : Grammar.blank.many.Takes w rest fun as ↦ as = w := by
    refine .many_chars rfl (fun a as hs ↦ .satisfying ?_ _) h.blank
    simpa using hw a (hs.subset List.mem_cons_self)
  have hcomments : (Grammar.comment.seq Grammar.blank.many).many.Takes [] rest fun _ ↦ True :=
    (Takes.many_nil (h.comment.seq _)).mono fun _ _ ↦ trivial
  have hgap := (hblanks.seq (w := []) hcomments).map (g := fun _ ↦ ()) (W := fun _ ↦ True)
    fun _ _ ↦ trivial
  rwa [List.append_nil] at hgap

/-- A part may stand right behind a gap of no length. -/
theorem takes_gap_right (hs : Solid (w ++ rest)) (h : e.Takes w rest V) :
    (Grammar.gap.right e).Takes w rest V :=
  (takes_gap (w := []) (by simp) hs).right h

/-- A part may stand behind a blank. -/
theorem takes_blank_right (hs : Solid (w ++ rest)) (h : e.Takes w rest V) :
    (Grammar.gap.right e).Takes (' ' :: w) rest V :=
  (takes_gap (w := [' ']) (by simp) hs).right h

/-- A part that is refused is refused behind a gap of no length. -/
theorem refuses_gap_right (hs : Solid text) (h : e.Refuses text) :
    (Grammar.gap.right e).Refuses text :=
  Refuses.right_of_takes (w := []) (takes_gap (by simp) hs) h

/-- A part right behind a text. -/
theorem takes_after (s : String) (hs : Solid (w ++ rest)) (h : e.Takes w rest V) :
    (Grammar.after s e).Takes (s.toList ++ w) rest V :=
  (Takes.literal s _).right (takes_gap_right hs h)

/-- A part behind a text and a blank. -/
theorem takes_after_blank (s : String) (hs : Solid (w ++ rest)) (h : e.Takes w rest V) :
    (Grammar.after s e).Takes (s.toList ++ ' ' :: w) rest V :=
  (Takes.literal s _).right (takes_blank_right hs h)

/-- A part right before a text. -/
theorem takes_before (s : String) (hs : Solid (s.toList ++ rest))
    (h : e.Takes w (s.toList ++ rest) V) :
    (Grammar.before e s).Takes (w ++ s.toList) rest V :=
  h.left (takes_gap_right hs (.literal s rest))

/-- A part right behind another. -/
theorem takes_pair (hs : Solid (w ++ rest)) (h : e.Takes v (w ++ rest) V) (h' : f.Takes w rest W) :
    (Grammar.pair e f).Takes (v ++ w) rest fun x ↦ V x.1 ∧ W x.2 :=
  h.seq (takes_gap_right hs h')

/-- Where no gap begins, a list is a repetition with gaps before its parts. -/
theorem takes_list_of_many {Vs : List α → Prop} (hr : e.reads = true) (hs : Solid (w ++ rest))
    (h : (Grammar.gap.right e).many.Takes w rest Vs) : (Grammar.list e).Takes w rest Vs := by
  have hgap : (Grammar.gap.right e).reads = true := Peg.reads_right _ hr
  intro pos
  obtain ⟨as, has, hv⟩ := h pos
  obtain ⟨u, hu, -⟩ := takes_gap (w := []) (by simp) hs pos
  have hfirst : (Grammar.gap.right e).outcome ⟨w ++ rest, pos⟩ = e.outcome ⟨w ++ rest, pos⟩ :=
    Peg.outcome_right_of_some hu
  refine ⟨as, ?_, hv⟩
  cases he : e.outcome ⟨w ++ rest, pos⟩ with
  | none =>
    rw [Peg.outcome_many_of_none (hfirst.trans he), Option.some.injEq, Prod.mk.injEq] at has
    simp only [Grammar.list, Peg.outcome, he, Option.bind_none, Option.map_some, ← has.1, ← has.2]
  | some r =>
    obtain ⟨a, next⟩ := r
    obtain ⟨bs, last, hm⟩ := Peg.exists_outcome_many (Grammar.gap.right e) next
    rw [Peg.outcome_many_of_some hgap (hfirst.trans he) hm, Option.some.injEq,
      Prod.mk.injEq] at has
    have hseq : (e.seq (Grammar.gap.right e).many).outcome ⟨w ++ rest, pos⟩ =
        some ((a, bs), last) := by
      rw [Peg.outcome, he, Option.bind_some, hm, Option.map_some]
    rw [Grammar.list, Peg.outcome, Peg.outcome, hseq]
    simp only [Option.map_some, ← has.1, ← has.2]

/-- The words of items that stand right behind one another. -/
theorem takes_list (hr : e.reads = true) {items : List ι} {word : ι → List Char} {g : α → γ}
    {g' : ι → γ}
    (h : ∀ i is, i :: is <:+ items → e.Takes (word i) (is.flatMap word ++ rest) fun a ↦ g a = g' i)
    (hs : ∀ is, is <:+ items → Solid (is.flatMap word ++ rest)) (hstop : e.Refuses rest) :
    (Grammar.list e).Takes (items.flatMap word) rest fun as ↦ as.map g = items.map g' := by
  have hgap : (Grammar.gap.right e).reads = true := Peg.reads_right _ hr
  refine takes_list_of_many hr (hs items (List.suffix_refl _)) (.many hgap (fun i is hi ↦ ?_)
    (refuses_gap_right (hs [] List.nil_suffix) hstop))
  refine takes_gap_right ?_ (h i is hi)
  have hsolid := hs (i :: is) hi
  rwa [List.flatMap_cons, List.append_assoc] at hsolid

/-! ### Ends of lines -/

/-- The text is at its end or goes on with a line break. -/
def EndsLine (text : List Char) : Prop := ∀ a, text.head? = some a → a = '\n'

/-- At the end of a line no gap begins. -/
theorem EndsLine.solid (h : EndsLine text) : Solid text := by
  cases text with
  | nil => exact solid_nil
  | cons a text =>
    obtain rfl := h a rfl
    exact solid_cons (by decide) text

/-- At the end of a line there is no digit. -/
theorem EndsLine.refuses_digit (h : EndsLine text) : Grammar.digit.Refuses text := by
  apply Refuses.satisfying
  intro a ha
  rw [h a ha]
  rfl

/-- Before lines the line ends. -/
theorem endsLine_lines {line : ι → List Char} (items : List ι) (h : EndsLine rest) :
    EndsLine ((items.flatMap fun i ↦ '\n' :: line i) ++ rest) := by
  cases items with
  | nil => exact h
  | cons i is =>
    intro a ha
    exact (Option.some.inj ha).symm

/-- No line ends before another character. -/
theorem refuses_lineBreak (h : ∀ a, text.head? = some a → Grammar.isBreak a = false) :
    Grammar.lineBreak.Refuses text := by
  have hbreak : ∀ (s : String) (b : Char) (cs : List Char), s.toList = b :: cs →
      Grammar.isBreak b = true → (Peg.literal s : Grammar.Expr Unit).Refuses text := by
    intro s b cs hs hb
    apply Refuses.literal
    rw [hs]
    rintro ⟨t, rfl⟩
    rw [h b rfl] at hb
    cases hb
  exact (hbreak "\n" '\n' [] rfl rfl).choice
    ((hbreak "\r\n" '\r' ['\n'] rfl rfl).choice (hbreak "\r" '\r' [] rfl rfl))

/-- A line break is read before another character. -/
theorem takes_breaks (hs : Solid text)
    (h : ∀ a, text.head? = some a → Grammar.isBreak a = false) :
    Grammar.breaks.Takes ['\n'] text fun _ ↦ True := by
  have hfirst : Grammar.lineBreak.Takes ['\n'] text fun _ ↦ True :=
    (Takes.literal "\n" text).choice _
  have hmore : (Grammar.list Grammar.lineBreak).Takes [] text fun _ ↦ True :=
    (Takes.optional_of_refuses ((refuses_lineBreak h).seq _)).map fun _ _ ↦ trivial
  exact (takes_pair (w := []) hs hfirst hmore).map fun _ _ ↦ trivial

/-- A part is read on a line of its own. -/
theorem takes_onLine (hs : Solid (w ++ rest))
    (hb : ∀ a, (w ++ rest).head? = some a → Grammar.isBreak a = false) (h : e.Takes w rest V) :
    ((Grammar.pair Grammar.breaks e).map Prod.snd).Takes ('\n' :: w) rest V :=
  (takes_pair hs (takes_breaks hs hb) h).map fun _ hx ↦ hx.2

/-! ### Words -/

/-- A symbol ends no line. -/
theorem isBreak_char (s : Symbol) : Grammar.isBreak s.char = false := by
  obtain ⟨c, hc⟩ := s
  by_cases hn : c = '\n'
  · subst hn
    cases hc
  · by_cases hr : c = '\r'
    · subst hr
      cases hc
    · simp [Grammar.isBreak, hn, hr]

/-- The digits of a numeral are read as far as they go. -/
theorem takes_digits {ds : Digits} (h : IsNumeral ds) (hd : Grammar.digit.Refuses rest) :
    Grammar.digit.some.Takes ds rest fun v ↦ v = ds :=
  .some_chars rfl h.ne_nil
    (fun _ _ hs ↦ .satisfying (h.isDigit _ (hs.subset List.mem_cons_self)) _) hd

/-- A numeral is read as a number with these digits. -/
theorem takes_countText {ds : Digits} (h : IsNumeral ds) (hd : Grammar.digit.Refuses rest) :
    Grammar.count.Takes ds rest fun d ↦ d.value = ds :=
  (takes_digits h hd).rule

/-- The digits of a number are read as the number. -/
theorem readCount_digits {d : Located Digits} {n : Nat} (hd : d.value = Text.digits n)
    (hn : n ≤ maxCount) : readCount d = .ok n := by
  rw [readCount, Text.count?, hd]
  simp only [ofDigits_digits, if_pos hn]

/-- The digits of the number of a state are read as the state. -/
theorem readState_digits {d : Located Digits} {q : State} (hd : d.value = Text.digits q.index)
    (hq : q.index ≤ maxCount) : readState d = .ok q := by
  rw [readState, readCount_digits hd hq]
  rfl

/-- A text that begins otherwise does not begin with a numeral. -/
theorem refuses_literal_numeral {s : String} {a : Char} {cs : List Char} {ds : Digits}
    (hs : s.toList = a :: cs) (ha : a.isDigit = false) (h : IsNumeral ds) :
    (Peg.literal s : Grammar.Expr Unit).Refuses (ds ++ rest) := by
  obtain ⟨d, ds, rfl⟩ := List.exists_cons_of_ne_nil h.ne_nil
  apply Refuses.literal
  rw [hs]
  intro hp
  obtain rfl := (List.cons_prefix_cons.mp hp).1
  rw [h.isDigit a List.mem_cons_self] at ha
  cases ha

/-- A state as it is written, with its letter or without it. -/
structure StateText where
  letter : Bool
  digits : Digits

/-- The characters of a state. -/
def StateText.spelled (q : StateText) : List Char := if q.letter then 'q' :: q.digits else q.digits

/-- A state is read with these digits. -/
theorem takes_stateText {q : StateText} (h : IsNumeral q.digits)
    (hd : Grammar.digit.Refuses rest) :
    Grammar.state.Takes q.spelled rest fun d ↦ d.value = q.digits := by
  obtain ⟨letter, ds⟩ := q
  have hbody : ((Peg.literal "q").optional.right Grammar.count : Grammar.Expr _).Takes
      (StateText.spelled ⟨letter, ds⟩) rest fun d ↦ d.value = ds := by
    cases letter with
    | true => exact (Takes.literal "q" _).optional.right (takes_countText h hd)
    | false =>
      exact Takes.right (v := []) (Takes.optional_of_refuses
        (refuses_literal_numeral rfl (by decide) h)) (takes_countText h hd)
  exact hbody.rule.map fun _ hv ↦ hv

/-- A symbol is read from between its quotes. -/
theorem takes_symbol {s : Symbol} (hs : s.char ≠ '\'') (rest : List Char) :
    Grammar.symbol.Takes (writtenSymbol s) rest fun c ↦ readSymbol c = .ok s := by
  have hchar : (Peg.satisfying fun c ↦ !(c = '\'' || Grammar.isBreak c) : Grammar.Expr Char).Takes
      [s.char] ("'".toList ++ rest) fun c ↦ c = s.char := by
    apply Takes.satisfying
    simp [hs, isBreak_char]
  have hquoted : Grammar.quotedSymbol.Takes (writtenSymbol s) rest
      fun v ↦ v.value.value = s.char :=
    ((Takes.literal "'" _).right (hchar.rule.left (.literal "'" rest))).rule
  refine ((hquoted.map (W := fun c ↦ c = s.char) fun _ hv ↦ hv).choice _).rule.mono ?_
  rintro ⟨c, sp⟩ rfl
  rw [readSymbol, Symbol.ofChar_char]
  rfl

/-- An action is read from its letter. -/
theorem takes_action (a : Action) (rest : List Char) :
    Grammar.action.Takes [a.code] rest fun c ↦ readAction c = .ok a := by
  have halpha : a.code.isAlpha = true := by cases a <;> decide
  apply (Takes.satisfying halpha rest).rule.mono
  rintro ⟨c, sp⟩ rfl
  rw [readAction, Action.ofCode_code]
  rfl

/-- A tape is read from between its quotes. -/
theorem takes_tape {t : Tape} (ht : ∀ s ∈ t.toList, s.char ≠ '"') (rest : List Char) :
    Grammar.tape.Takes ("\"".toList ++ (t.toList.map Symbol.char ++ "\"".toList)) rest
      fun v ↦ readTape v = .ok t := by
  have hcells : (Peg.many (.satisfying fun c ↦ !(c = '"' || Grammar.isBreak c)) :
      Grammar.Expr _).Takes (t.toList.map Symbol.char) ("\"".toList ++ rest)
      fun cs ↦ cs = t.toList.map Symbol.char := by
    refine .many_chars rfl (fun c cs hs ↦ .satisfying ?_ _) (.satisfying ?_)
    · obtain ⟨s, hmem, rfl⟩ := List.mem_map.mp (hs.subset List.mem_cons_self)
      simp [ht s hmem, isBreak_char]
    · intro a ha
      obtain rfl := Option.some.inj ha
      rfl
  apply ((Takes.literal "\"" _).right (hcells.rule.left (.literal "\"" rest))).rule.map
  rintro ⟨⟨cs, sp⟩, sp'⟩ rfl
  rw [readTape, Tape.ofChars, Symbol.ofChars_eq_ok_iff.mpr rfl]
  rfl

/-- The characters of a head position. -/
def PositionText.spelled (t : PositionText) : List Char :=
  if t.negative then '-' :: t.digits else t.digits

/-- A head position is read with this sign and these digits. -/
theorem takes_positionText {t : PositionText} (h : IsNumeral t.digits)
    (hd : Grammar.digit.Refuses rest) :
    Grammar.position.Takes t.spelled rest fun p ↦ p.value = t := by
  obtain ⟨negative, ds⟩ := t
  have hbody : (((Peg.literal "-").optional.seq Grammar.digit.some).map
      fun p ↦ (⟨p.1.isSome, p.2⟩ : PositionText) : Grammar.Expr PositionText).Takes
      (PositionText.spelled ⟨negative, ds⟩) rest fun p ↦ p = ⟨negative, ds⟩ := by
    cases negative with
    | true =>
      apply (((Takes.literal "-" _).optional).seq (takes_digits h hd)).map
      rintro ⟨o, ds'⟩ ⟨⟨u, rfl, -⟩, rfl⟩
      rfl
    | false =>
      have hminus : (Peg.literal "-" : Grammar.Expr Unit).Refuses (ds ++ rest) :=
        refuses_literal_numeral rfl (by decide) h
      apply ((Takes.optional_of_refuses hminus).seq (takes_digits h hd)).map
      rintro ⟨o, ds'⟩ ⟨rfl, rfl⟩
      rfl
  exact hbody.rule

/-- A head position as it is written. -/
def positionText : Int → PositionText
  | .ofNat n => ⟨false, Text.digits n⟩
  | .negSucc n => ⟨true, Text.digits (n + 1)⟩

theorem spelled_positionText (n : Int) : (positionText n).spelled = writtenPosition n := by
  cases n <;> rfl

theorem isNumeral_positionText (n : Int) : IsNumeral (positionText n).digits := by
  cases n <;> exact isNumeral_digits _

/-- A head position as it is written is read as the position. -/
theorem readPosition_positionText {p : Located PositionText} {n : Int}
    (hp : p.value = positionText n) (hn : minPosition ≤ n ∧ n ≤ maxPosition) :
    readPosition p = .ok n := by
  have hvalue : Text.signed (positionText n).negative (positionText n).digits = n := by
    cases n with
    | ofNat n => simp [positionText, Text.signed, ofDigits_digits]
    | negSucc n => simp [positionText, Text.signed, ofDigits_digits, Int.negSucc_eq]
  have hlow : ¬n < minPosition := by omega
  have hhigh : ¬maxPosition < n := by omega
  simp only [readPosition, hp, hvalue, if_neg hlow, if_neg hhigh]

private theorem not_comment_of_suffix {n cs : List Char} (hn : WritableName n) (hs : cs <:+ n)
    (hrest : EndsLine rest) : ¬"//".toList <+: cs ++ rest := by
  have hslash : ∀ ds, ['/'] <+: ds ++ rest → ∃ es, ds = '/' :: es := by
    rintro ds ⟨t, ht⟩
    cases ds with
    | nil => exact absurd (hrest '/' (by rw [← List.nil_append rest, ← ht]; rfl)) (by decide)
    | cons d es => exact ⟨es, by rw [← (List.cons.inj ht).1]⟩
  intro hp
  obtain ⟨es, rfl⟩ := hslash cs (List.IsPrefix.trans ⟨['/'], rfl⟩ hp)
  obtain ⟨fs, rfl⟩ := hslash es (List.cons_prefix_cons.mp hp).2
  exact hn.plain (List.IsInfix.trans ⟨[], fs, rfl⟩ hs.isInfix)

/-- Before a name no gap begins. -/
theorem solid_name {n : List Char} (hn : WritableName n) (hrest : EndsLine rest) :
    Solid (n ++ rest) := by
  refine solid_of_head ?_ (not_comment_of_suffix hn (List.suffix_refl n) hrest)
  cases n with
  | nil =>
    intro a ha
    rw [hrest a ha]
    decide
  | cons c cs =>
    intro a ha
    obtain rfl := Option.some.inj ha
    have hblank := hn.trimmed.head c rfl
    constructor
    · rintro rfl
      cases hblank
    · rintro rfl
      cases hblank

/-- A name is read up to the end of its line. -/
theorem takes_text {n : List Char} (hn : WritableName n) (hne : n ≠ []) (hrest : EndsLine rest) :
    Grammar.text.Takes n rest fun t ↦ t.value = n := by
  refine (Takes.some_chars rfl hne (fun c cs hs ↦ .without ?_ (.satisfying ?_ _))
    (.without_right (.satisfying ?_) _)).rule
  · have hcomment := not_comment_of_suffix hn hs hrest
    exact .literal hcomment
  · obtain ⟨hr, hb⟩ := hn.inLine c (hs.subset List.mem_cons_self)
    simp [Grammar.isBreak, hr, hb]
  · intro a ha
    rw [hrest a ha]
    rfl

/-- A mode is read from its name. -/
theorem takes_modeValue (m : Mode) (rest : List Char) :
    Grammar.modeValue.Takes (writtenMode m) rest fun v ↦ v.value = m := by
  cases m with
  | normal =>
    exact (((Takes.literal "normal" rest).map (W := fun m ↦ m = Mode.normal)
      fun _ _ ↦ rfl).choice _).rule
  | strict =>
    have hrefuses : ((Peg.literal "normal").map fun _ ↦ Mode.normal : Grammar.Expr Mode).Refuses
        (writtenMode .strict ++ rest) := by
      refine (Refuses.literal ?_).map
      show ¬"normal".toList <+: "strict".toList ++ rest
      simp
    exact (Takes.choice_of_refuses hrefuses ((Takes.literal "strict" rest).map
      (W := fun m ↦ m = Mode.strict) fun _ _ ↦ rfl)).rule

end TapeMachine.Definition
