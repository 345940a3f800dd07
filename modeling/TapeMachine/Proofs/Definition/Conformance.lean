import TapeMachine.Proofs.Definition.Agreement

/-!
# Conformance of the reader to the grammar

A file is refused for its form exactly if its text has no derivation; otherwise the sections that
are evaluated are those that the tokens of the derivation show, in order (`parse_conforms`). What is
evaluated is never refused for the form of the file.
-/

namespace TapeMachine.Definition

/-! ### Evaluation -/

variable {α β : Type}

/-- The result is no complaint about the form of a file. -/
def FormAccepted (x : Except Error α) : Prop :=
  ∀ pos expected, x ≠ .error (.unexpected pos expected)

namespace FormAccepted

theorem ok (a : α) : FormAccepted (.ok a : Except Error α) := fun _ _ h ↦ nomatch h

theorem faulty (fault : Fault) (span : Span) :
    FormAccepted (.error (.faulty fault span) : Except Error α) :=
  fun _ _ h ↦ nomatch h

theorem bind {x : Except Error α} {f : α → Except Error β} (hx : FormAccepted x)
    (hf : ∀ a, FormAccepted (f a)) : FormAccepted (x >>= f) := by
  cases x with
  | error e =>
    intro pos expected h
    exact hx pos expected (by cases h; rfl)
  | ok a => exact hf a

theorem map {x : Except Error α} (hx : FormAccepted x) (f : α → β) : FormAccepted (f <$> x) := by
  cases x with
  | error e =>
    intro pos expected h
    exact hx pos expected (by cases h; rfl)
  | ok a => exact ok (f a)

theorem mapError {ε : Type} {f : ε → Error} (hf : ∀ e pos expected, f e ≠ .unexpected pos expected)
    (x : Except ε α) : FormAccepted (x.mapError f) := by
  cases x with
  | error e =>
    intro pos expected h
    exact hf e pos expected (Except.error.inj h)
  | ok a => exact ok a

theorem mapError_faulty {ε : Type} (f : ε → Fault) (span : Span) (x : Except ε α) :
    FormAccepted (x.mapError fun e ↦ .faulty (f e) span) :=
  mapError (fun e pos expected h ↦ by cases h) x

theorem mapM {f : α → Except Error β} (hf : ∀ a, FormAccepted (f a)) (as : List α) :
    FormAccepted (as.mapM f) := by
  induction as with
  | nil => exact ok []
  | cons a as ih =>
    rw [List.mapM_cons]
    exact (hf a).bind fun b ↦ ih.bind fun bs ↦ ok (b :: bs)

theorem foldlM {f : β → α → Except Error β} (hf : ∀ b a, FormAccepted (f b a)) (as : List α)
    (b : β) : FormAccepted (as.foldlM f b) := by
  induction as generalizing b with
  | nil => exact ok b
  | cons a as ih =>
    rw [List.foldlM_cons]
    exact (hf b a).bind ih

theorem readCount (d : Located Digits) : FormAccepted (readCount d) := by
  unfold Definition.readCount
  split
  · exact ok _
  · exact faulty _ _

theorem readSymbol (c : Located Char) : FormAccepted (readSymbol c) := mapError_faulty _ _ _

theorem readRule (r : Located RuleText) : FormAccepted (readRule r) :=
  ((readCount _).map _).bind fun _ ↦ (readSymbol _).bind fun _ ↦ ((readCount _).map _).bind fun _ ↦
    (readSymbol _).bind fun _ ↦ (mapError_faulty _ _ _).bind fun _ ↦ ok _

theorem readPosition (p : Located PositionText) : FormAccepted (readPosition p) := by
  unfold Definition.readPosition
  simp only
  split
  · exact faulty _ _
  · split
    · exact faulty _ _
    · exact ok _

theorem readRun (r : RunText) : FormAccepted (readRun r) :=
  (mapError_faulty _ _ _).bind fun _ ↦ (readPosition _).bind fun _ ↦ ok _

theorem say (d : Draft) (s : Section) : FormAccepted (d.say s) := by
  cases s with
  | name text => exact ok _
  | mode m => exact ok _
  | states count => exact (readCount count).bind fun _ ↦ ok _
  | start state => exact ((readCount state).map _).bind fun _ ↦ ok _
  | alphabet symbols => exact (mapM readSymbol symbols).bind fun _ ↦ ok _
  | transitions rules => exact (mapM readRule rules).bind fun _ ↦ ok _
  | runs runs => exact (mapM readRun runs).bind fun _ ↦ ok _

theorem add (d : Draft) (s : Located Section) : FormAccepted (d.add s) := by
  unfold Draft.add
  split
  · exact faulty _ _
  · exact say d s.value

theorem required (kind : SectionKind) (o : Option α) : FormAccepted (required kind o) := by
  cases o with
  | none => exact fun _ _ h ↦ nomatch h
  | some a => exact ok a

theorem defineRule (mode : Mode) (sofar : Machine × List Trigger) (r : Located Rule) :
    FormAccepted (defineRule mode sofar r) := by
  unfold Definition.defineRule
  simp only
  split
  · exact ok _
  · exact ok _
  · exact faulty _ _

theorem program (d : Draft) : FormAccepted d.program :=
  (required _ _).bind fun _ ↦ (required _ _).bind fun _ ↦ (required _ _).bind fun _ ↦
    (foldlM (defineRule _) _ _).bind fun _ ↦ ok _

end FormAccepted

/-- What sections say is never refused for the form of the file. -/
theorem formAccepted_programOf (sections : List (Located Section)) :
    FormAccepted (programOf sections) :=
  (FormAccepted.foldlM FormAccepted.add _ _).bind fun d ↦ (FormAccepted.program d).bind fun _ ↦
    (FormAccepted.mapError (fun e pos expected h ↦ by cases h) _).bind fun _ ↦ .ok _

/-! ### Conformance -/

/-- A file is refused for its form exactly if its text, without the blanks around it, has no
derivation from the grammar; and if it has one, then what is evaluated are the sections that the
tokens of the derivation show, in order. -/
theorem parse_conforms (source : String) :
    ((∃ pos expected, parse source = .error (.unexpected pos expected)) ↔
      ¬∃ tokens, HasTokens (Text.trim source.toList) tokens) ∧
    ∀ tokens, HasTokens (Text.trim source.toList) tokens → ∃ t parts stop sections,
      tokens = [t] ∧ t.inner = parts ++ [stop] ∧ parts.mapM Token.section? = some sections ∧
        parse source = programOf sections := by
  have hfounded : Grammar.file.founded = true := rfl
  obtain ⟨hnone, hsome⟩ := Production.derives_program (Text.trim source.toList)
  cases ho : Grammar.file.outcome (.ofText (Text.trim source.toList)) with
  | none =>
    have hno : ¬∃ tokens, HasTokens (Text.trim source.toList) tokens := by
      rintro ⟨tokens, next, hd⟩
      cases hd.unique (hnone ho)
    obtain ⟨m, hm⟩ := (Peg.read_eq_error_iff hfounded).mpr ho
    refine ⟨⟨fun _ ↦ hno, fun _ ↦ ⟨m.pos, RuleName.inOrder m.rules, ?_⟩⟩,
      fun tokens ht ↦ absurd ⟨tokens, ht⟩ hno⟩
    rw [parse, sections, hm]
    rfl
  | some r =>
    obtain ⟨secs, next⟩ := r
    obtain ⟨t, parts, stop, hd, hi, hp⟩ := hsome secs next ho
    have hparse : parse source = programOf secs := by
      rw [parse, sections, (Peg.read_eq_ok_iff hfounded).mpr ⟨next, ho⟩]
      rfl
    refine ⟨⟨?_, fun hno ↦ absurd ⟨[t], next, hd⟩ hno⟩, ?_⟩
    · rintro ⟨pos, expected, h⟩
      exact absurd (hparse ▸ h) (formAccepted_programOf secs pos expected)
    · rintro tokens ⟨next', hd'⟩
      obtain ⟨rfl, -⟩ := Prod.mk.inj (Option.some.inj (hd'.unique hd))
      exact ⟨t, parts, stop, secs, rfl, hi, hp, hparse⟩

/-- A file with one section is evaluated, although its name is missing; without the colon it has no
derivation. -/
theorem parse_conforms_states :
    (∃ tokens, HasTokens (Text.trim "states: 2 // two".toList) tokens ∧ ∃ t parts stop sections,
      tokens = [t] ∧ t.inner = parts ++ [stop] ∧ parts.mapM Token.section? = some sections ∧
        programOf sections = .error (.missing .name)) ∧
    ¬∃ tokens, HasTokens (Text.trim "states 2".toList) tokens := by
  have hmissing : parse "states: 2 // two" = .error (.missing .name) := rfl
  obtain ⟨haccepted, hevaluated⟩ := parse_conforms "states: 2 // two"
  constructor
  · have htokens : ∃ tokens, HasTokens (Text.trim "states: 2 // two".toList) tokens := by
      apply Classical.byContradiction
      intro hno
      obtain ⟨pos, expected, hform⟩ := haccepted.mpr hno
      cases hmissing.symm.trans hform
    obtain ⟨tokens, ht⟩ := htokens
    obtain ⟨t, parts, stop, sections, htree, hinner, hsections, hparse⟩ := hevaluated tokens ht
    exact ⟨tokens, ht, t, parts, stop, sections, htree, hinner, hsections,
      hparse.symm.trans hmissing⟩
  · exact (parse_conforms "states 2").1.mp ⟨_, _, rfl⟩

end TapeMachine.Definition
