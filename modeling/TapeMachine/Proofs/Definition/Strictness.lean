import TapeMachine.Definition.Excerpt
import TapeMachine.Proofs.Definition.Content
import TapeMachine.Proofs.Definition.Modes

/-!
# Strict files

What becomes of a file if its mode is changed from normal to strict (`parse_of_differInMode`). The
mode is asked for in two places only: where a rule is defined again, and where the finished program
is checked. So a strict file is refused for what the normal one is warned about first, and otherwise
it is read as the normal one is.
-/

namespace TapeMachine.Definition

open Peg (Cursor DifferIn Misses)

/-! ### Drafts -/

namespace Draft

/-- The draft with this mode. -/
def inMode (m : Mode) (d : Draft) : Draft := { d with mode := some m }

/-- A section that is no mode section says the same to the drafts of both modes. -/
theorem say_inMode (d : Draft) {s : Section} (hs : s.kind ≠ .mode) (m : Mode) :
    (d.inMode m).say s = inMode m <$> d.say s := by
  cases s with
  | name text => rfl
  | mode m' => exact absurd rfl hs
  | states count => cases h : readCount count <;> simp only [say, h] <;> rfl
  | start state => cases h : readState state <;> simp only [say, h] <;> rfl
  | alphabet symbols => cases h : symbols.mapM readSymbol <;> simp only [say, h] <;> rfl
  | transitions rules => cases h : rules.mapM readRule <;> simp only [say, h] <;> rfl
  | runs rs => cases h : rs.mapM readRun <;> simp only [say, h] <;> rfl

/-- A section is added to the drafts of both modes alike. -/
theorem exists_add_inMode (d : Draft) (s : Located Section) :
    ∃ r, ∀ m, (d.inMode m).add s = inMode m <$> r := by
  by_cases hs : s.value.kind = .mode
  · -- Both drafts have a mode, so another mode section is one too many.
    refine ⟨.error (.faulty (.repeatedSection .mode) s.span), fun m ↦ ?_⟩
    rw [add, hs]
    rfl
  · refine ⟨d.add s, fun m ↦ ?_⟩
    have hhas : (d.inMode m).has s.value.kind = d.has s.value.kind := by
      cases hk : s.value.kind with
      | mode => exact absurd hk hs
      | _ => rfl
    rw [add, add, hhas]
    split
    · rfl
    · exact say_inMode d hs m

/-- Sections are added to the drafts of both modes alike. -/
theorem exists_foldlM_add_inMode (secs : List (Located Section)) (d : Draft) :
    ∃ r, ∀ m, secs.foldlM add (d.inMode m) = inMode m <$> r := by
  induction secs generalizing d with
  | nil => exact ⟨.ok d, fun m ↦ rfl⟩
  | cons s secs ih =>
    obtain ⟨r, hr⟩ := exists_add_inMode d s
    cases r with
    | error e => exact ⟨.error e, fun m ↦ by rw [List.foldlM_cons, hr]; rfl⟩
    | ok d' =>
      obtain ⟨r', hr'⟩ := ih d'
      refine ⟨r', fun m ↦ ?_⟩
      rw [List.foldlM_cons, hr, ← hr']
      rfl

/-- The sections of a file with a mode section make drafts that differ in this mode at most. -/
theorem exists_ofSections_inMode (front back : List (Located Section)) (span : Span) :
    ∃ r, ∀ m, ofSections (front ++ ⟨.mode m, span⟩ :: back) = inMode m <$> r := by
  simp only [ofSections, List.foldlM_append, List.foldlM_cons]
  cases front.foldlM add empty with
  | error e => exact ⟨.error e, fun m ↦ rfl⟩
  | ok d =>
    by_cases hd : d.has .mode = true
    · refine ⟨.error (.faulty (.repeatedSection .mode) span), fun m ↦ ?_⟩
      simp only [ok_bind, add, Section.kind, hd]
      rfl
    · obtain ⟨r, hr⟩ := exists_foldlM_add_inMode back d
      refine ⟨r, fun m ↦ ?_⟩
      simp only [ok_bind, add, Section.kind, hd]
      exact hr m

end Draft

/-! ### Programs -/

/-- Drafts that differ in their mode are refused alike or describe the same program, unless the
strict one is refused for the first rule that is defined again. -/
theorem Draft.program_strict (d : Draft) :
    (∃ e, ∀ m, (d.inMode m).program = .error e) ∨ ∃ p again, p.mode = .normal ∧
      (d.inMode .normal).program = .ok (p, again) ∧
      (again = [] → (d.inMode .strict).program = .ok ({ p with mode := .strict }, [])) ∧
      ∀ trigger others, again = trigger :: others → ∃ span,
        (d.inMode .strict).program = .error (.faulty (.repeatedRule trigger) span) := by
  simp only [Draft.program, inMode]
  cases required .name d.name with
  | error e => exact .inl ⟨e, fun m ↦ rfl⟩
  | ok name =>
    cases required .states d.states with
    | error e => exact .inl ⟨e, fun m ↦ rfl⟩
    | ok states =>
      cases required .transitions d.rules with
      | error e => exact .inl ⟨e, fun m ↦ rfl⟩
      | ok rules =>
        have hblank := defines_blank states (d.start.getD ⟨0⟩)
          (SortedSet.ofList (alphabetOf d.alphabet rules))
        have hnormal : Mode.normal = .strict → redefined [] rules = [] :=
          fun h ↦ absurd h (by decide)
        simp only [foldl_addSymbol_blank, ok_bind, Option.getD_some,
          foldlM_defineRule_ok hblank hnormal]
        refine .inr ⟨_, _, rfl, rfl, fun hnil ↦ ?_, fun trigger others hcons ↦ ?_⟩
        · rw [List.nil_append, List.map_eq_nil_iff] at hnil
          rw [foldlM_defineRule_ok hblank fun _ ↦ hnil, hnil]
          rfl
        · rw [List.nil_append, List.map_eq_cons_iff] at hcons
          obtain ⟨r, others, hr, rfl, -⟩ := hcons
          rw [foldlM_defineRule_error hblank hr]
          exact ⟨r.span, rfl⟩

/-! ### Readings -/

/-- How a file fares as a strict one follows from how it fares as a normal one. -/
structure StrictReading (normal strict : Except Error (Program × List Warning)) : Prop where
  /-- What is refused in normal mode is refused for the same reason. -/
  refused : ∀ e, normal = .error e → strict = .error e
  /-- What is accepted without a warning is accepted as the same program in strict mode. -/
  accepted : ∀ p, normal = .ok (p, []) →
    p.mode = .normal ∧ strict = .ok ({ p with mode := .strict }, [])
  /-- What is warned first about a rule that is defined again is refused for that rule. -/
  redefined : ∀ p trigger others, normal = .ok (p, .redefined trigger :: others) → ∃ span,
    strict = .error (.faulty (.repeatedRule trigger) span) ∧
      (Error.faulty (.repeatedRule trigger) span).reason = "Duplicate transition rule: (" ++
        trigger.state.text ++ ", " ++ trigger.symbol.text ++ ")"
  /-- What is warned first about a finding is refused for that finding. -/
  found : ∀ p finding others, normal = .ok (p, .finding finding :: others) →
    strict = .error (.finding finding) ∧ ∀ source,
      (Error.finding finding).message source = "Program validation error: " ++ finding.text

namespace StrictReading

/-- What is refused for the same reason in both modes. -/
theorem of_error (e : Error) : StrictReading (.error e) (.error e) where
  refused _ h := h
  accepted _ h := nomatch h
  redefined _ _ _ h := nomatch h
  found _ _ _ h := nomatch h

/-- What is accepted in both modes. -/
theorem of_accepted {p : Program} (hp : p.mode = .normal) :
    StrictReading (.ok (p, [])) (.ok ({ p with mode := .strict }, [])) where
  refused _ h := nomatch h
  accepted _ h := by
    cases h
    exact ⟨hp, rfl⟩
  redefined _ _ _ h := nomatch h
  found _ _ _ h := nomatch h

/-- What is refused in strict mode for a rule that is defined again. -/
theorem of_redefined (p : Program) (trigger : Trigger) (others : List Warning) (span : Span) :
    StrictReading (.ok (p, .redefined trigger :: others))
      (.error (.faulty (.repeatedRule trigger) span)) where
  refused _ h := nomatch h
  accepted _ h := nomatch h
  redefined _ _ _ h := by
    cases h
    exact ⟨span, rfl, rfl⟩
  found _ _ _ h := nomatch h

/-- What is refused in strict mode for a finding. -/
theorem of_finding (p : Program) (finding : Finding) (others : List Warning) :
    StrictReading (.ok (p, .finding finding :: others)) (.error (.finding finding)) where
  refused _ h := nomatch h
  accepted _ h := nomatch h
  redefined _ _ _ h := nomatch h
  found _ _ _ h := by
    cases h
    exact ⟨rfl, fun _ ↦ rfl⟩

end StrictReading

/-- Drafts that differ in their mode fare as a normal and a strict file. -/
theorem strictReading_program (d : Draft) :
    StrictReading
      (do
        let (program, again) ← (d.inMode .normal).program
        let findings ← program.check.mapError .finding
        return (program, again.map .redefined ++ findings.map .finding))
      (do
        let (program, again) ← (d.inMode .strict).program
        let findings ← program.check.mapError .finding
        return (program, again.map .redefined ++ findings.map .finding)) := by
  rcases d.program_strict with ⟨e, he⟩ | ⟨p, again, hmode, hnormal, hstrict, hagain⟩
  · rw [he, he]
    exact .of_error e
  · have hcheck : p.check = .ok p.findings := by rw [Program.check, hmode]
    rw [hnormal]
    simp only [ok_bind, hcheck]
    cases again with
    | cons trigger others =>
      obtain ⟨span, hspan⟩ := hagain trigger others rfl
      rw [hspan]
      exact .of_redefined p trigger _ span
    | nil =>
      have hsame : ({ p with mode := .strict } : Program).findings = p.findings := rfl
      rw [hstrict rfl]
      simp only [ok_bind, Program.check, hsame]
      cases p.findings with
      | nil => exact .of_accepted hmode
      | cons finding others => exact .of_finding p finding _

/-- Sections that are the same but for the mode fare as a normal and a strict file. -/
theorem strictReading_programOf {xs ys : List (Located Section)} (h : ModeApart xs ys) :
    StrictReading (programOf xs) (programOf ys) := by
  obtain ⟨front, span, back, rfl, rfl⟩ := h
  obtain ⟨r, hr⟩ := Draft.exists_ofSections_inMode front back span
  rw [programOf, programOf, hr, hr]
  cases r with
  | error e => exact .of_error e
  | ok d => exact strictReading_program d

/-! ### Places of errors -/

/-- Texts that differ in letters have their lines and columns at the same places. -/
theorem placeAt_of_differIn {letters s t : List Char} {start : Nat}
    (h : DifferIn letters start s t) (hl : '\n' ∉ letters) (pos : Nat) :
    placeAt s pos = placeAt t pos := by
  have hbreaks : (s.take pos).map (· == '\n') = (t.take pos).map (· == '\n') := by
    apply List.ext_getElem
    · simp only [List.length_map, List.length_take, h.length_eq]
    · intro i hs ht
      simp only [List.length_map, List.length_take] at hs ht
      simp only [List.getElem_map, List.getElem_take]
      rcases h.either i _ _ (List.getElem?_eq_getElem (by omega))
        (List.getElem?_eq_getElem (by omega)) with heq | ⟨ha, hb⟩
      · rw [heq]
      · have hne {a : Char} (ha : a ∈ letters) : (a == '\n') = false := by
          rw [beq_eq_false_iff_ne]
          rintro rfl
          exact hl ha
        rw [hne ha, hne hb]
  have hline (u : List Char) : u.count '\n' = (u.map (· == '\n')).count true := by
    rw [List.count, List.count, List.countP_map]
    exact List.countP_congr fun a _ ↦ by simp
  have hcolumn (u : List Char) : (u.reverse.takeWhile (· ≠ '\n')).length =
      ((u.map (· == '\n')).reverse.takeWhile (! ·)).length := by
    rw [← List.map_reverse, List.takeWhile_map, List.length_map]
    congr 2
    funext a
    by_cases ha : a = '\n' <;> simp [ha]
  rw [placeAt, placeAt, indentAt, indentAt, hline, hline, hcolumn, hcolumn, hbreaks]

/-- Errors are shown at the same lines and columns of texts that differ in letters. -/
theorem places_of_differIn {letters s t : List Char} {start : Nat}
    (h : DifferIn letters start s t) (hl : '\n' ∉ letters) (e : Error) :
    (e.excerpt? s).map (fun x ↦ (x.place, x.stop)) =
      (e.excerpt? t).map fun x ↦ (x.place, x.stop) := by
  have hplace := placeAt_of_differIn h hl
  cases e with
  | unexpected pos expected =>
    simp only [Error.excerpt?, Excerpt.atPos, Option.map_some, hplace]
  | faulty fault span =>
    simp only [Error.excerpt?, Excerpt.atSpan, Excerpt.stopPlace, Option.map_some, hplace]
  | missing kind => rfl
  | finding f => rfl

/-! ### Files -/

/-- A file that differs from a normal one in its mode only fares as follows in strict mode. What is
refused in normal mode is refused for the same reason at the same place; what is accepted without a
warning is accepted as the same program without a warning; and anything else is refused for what
comes first of what the normal file is warned about. -/
theorem parse_of_differInMode {source source' : String} (h : DifferInMode source source') :
    StrictReading (parse source) (parse source') ∧ ∀ e : Error,
      (e.excerpt? (Text.trim source.toList)).map (fun x ↦ (x.place, x.stop)) =
        (e.excerpt? (Text.trim source'.toList)).map fun x ↦ (x.place, x.stop) := by
  constructor
  · rw [parse, parse]
    rcases sections_of_differInMode h with ⟨e, hs, ht⟩ | ⟨xs, ys, hs, ht, hapart⟩
    · rw [hs, ht]
      exact .of_error e
    · rw [hs, ht]
      exact strictReading_programOf hapart
  · obtain ⟨f, hs, ht, -⟩ := h.exists_trim
    rw [hs, ht]
    exact places_of_differIn f.differIn (by decide)

/-- A machine with a rule that is defined again. -/
def twice : Program where
  name := "a"
  mode := .normal
  machine := (((Machine.blank 1 ⟨0⟩).addSymbol ⟨'a', .refl true⟩).define
    ⟨⟨⟨0⟩, ⟨'a', .refl true⟩⟩, ⟨⟨0⟩, ⟨'a', .refl true⟩, .accept⟩⟩).define
    ⟨⟨⟨0⟩, ⟨'a', .refl true⟩⟩, ⟨⟨0⟩, ⟨'a', .refl true⟩, .reject⟩⟩
  runs := []

/-- The file of that machine in each mode. -/
def twiceSource : Mode → String
  | .normal => "name: a\nmode: normal\nstates: 1\ntransitions:\n(0,a)->(0,a,Y)\n(0,a)->(0,a,N)"
  | .strict => "name: a\nmode: strict\nstates: 1\ntransitions:\n(0,a)->(0,a,Y)\n(0,a)->(0,a,N)"

/-- The mode section of the file is read behind its name, so the files differ in their mode. -/
theorem differInMode_twiceSource : DifferInMode (twiceSource .normal) (twiceSource .strict) := by
  refine ⟨⟨"name: a\n".toList, [' '],
    "\nstates: 1\ntransitions:\n(0,a)->(0,a,Y)\n(0,a)->(0,a,N)".toList, by simp⟩, by decide,
    by decide, ?_⟩
  generalize htext : Text.trim (twiceSource .normal).toList = text
  have hlength : text.length < 100 := by
    rw [← htext]
    decide
  have hopen : opening.scan 100 (.atPos text 0) Misses.none =
      .matched ([], ()) (.atPos text 0) Misses.none := by
    rw [← htext]
    rfl
  obtain ⟨s, m, hname⟩ : ∃ s m, sectionBlock.scan 100 (.atPos text 0) Misses.none =
      .matched s (.atPos text 8) m := by
    rw [← htext]
    exact ⟨_, _, rfl⟩
  have hgap : Grammar.gap.scan 100 (.atPos text 8) Misses.none =
      .matched () (.atPos text 8) Misses.none := by
    rw [← htext]
    rfl
  have hrounds := Cursor.length_rest_lt hlength
  have hfirst : LooksAt text 0 := .first (Peg.outcome_of_scan_matched rfl (hrounds 0) hopen)
  exact ⟨8, by decide, hfirst.next (Peg.outcome_of_scan_matched rfl (hrounds 0) hname)
    (Peg.outcome_of_scan_matched rfl (hrounds 8) hgap), .inl rfl⟩

/-- In normal mode the file is read with a warning, and in strict mode it is refused. -/
theorem parse_of_differInMode_twice :
    DifferInMode (twiceSource .normal) (twiceSource .strict) ∧
      parse (twiceSource .normal) = .ok (twice, [.redefined ⟨⟨0⟩, ⟨'a', rfl⟩⟩]) ∧
      ∃ span, parse (twiceSource .strict) =
        .error (.faulty (.repeatedRule ⟨⟨0⟩, ⟨'a', rfl⟩⟩) span) := by
  have hparse : parse (twiceSource .normal) =
      .ok (twice, [.redefined ⟨⟨0⟩, ⟨'a', rfl⟩⟩]) := by decide
  obtain ⟨span, hstrict, -⟩ :=
    (parse_of_differInMode differInMode_twiceSource).1.redefined _ _ _ hparse
  exact ⟨differInMode_twiceSource, hparse, span, hstrict⟩

end TapeMachine.Definition
