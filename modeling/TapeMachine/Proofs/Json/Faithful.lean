import TapeMachine.Proofs.Json.Spelling

/-!
# Written values are read back

What a value is written as denotes that value (`ofJson_toJson`), so that a value which was read,
from any of its spellings, survives being written and read again (`Spelled.faithful`). A tape is
read from a text of symbols, and from no other text.
-/

namespace TapeMachine

open Json

variable {α : Type} [JsonForm α] [Spelled α]

/-- A value within the limits of numbers is read back from what it is written as. -/
theorem ofJson_toJson {a : α} (h : Fits a) : ofJson (toJson a) = .ok a :=
  Spelled.ofJson_eq_ok_iff.mpr (Spelled.spells_toJson h)

/-- What was read is within the limits of numbers. -/
theorem fits_of_ofJson {j : Json} {a : α} (h : ofJson j = .ok a) : Fits a :=
  Spelled.fits_of_spells (Spelled.ofJson_eq_ok_iff.mp h)

/-- A symbol can be seen. -/
theorem Symbol.visible (s : Symbol) :
    Text.isBlank s.char = false ∧ Text.isControl s.char = false := by
  simpa [isSymbolChar] using s.valid

/-! ## Tapes -/

/-- A text is read as a tape, or it is refused for its first character that is no symbol. -/
theorem ofJson_tape_cases (text : String) :
    (∃ t : Tape, ofJson (.string text) = .ok t ∧ ∀ c ∈ text.toList, isSymbolChar c = true) ∨
      ∃ before c after, text.toList = before ++ c :: after ∧
        (∀ b ∈ before, isSymbolChar b = true) ∧ isSymbolChar c = false ∧
        (ofJson (.string text) : Except FormError Tape) = .error (.invalidSymbol ⟨c⟩) := by
  rcases Symbol.ofChars_cases text.toList with
    ⟨l, htext, hl⟩ | ⟨before, c, after, htext, hb, hc, he⟩
  · refine .inl ⟨Tape.ofList l, ?_, ?_⟩
    · simp [ofJson, Tape.ofChars, hl, Functor.map, Except.map, Except.mapError]
    · rw [htext]
      intro c hc
      obtain ⟨s, -, rfl⟩ := List.mem_map.mp hc
      exact s.valid
  · refine .inr ⟨before, c, after, htext, hb, hc, ?_⟩
    simp [ofJson, Tape.ofChars, he, Functor.map, Except.map, Except.mapError]

/-- A text is a tape exactly if it holds symbols only. -/
theorem exists_ofJson_tape_iff (text : String) :
    (∃ t : Tape, ofJson (.string text) = .ok t) ↔ ∀ c ∈ text.toList, isSymbolChar c = true := by
  rcases ofJson_tape_cases text with ⟨t, ht, hall⟩ | ⟨before, c, after, htext, -, hc, he⟩
  · exact ⟨fun _ ↦ hall, fun _ ↦ ⟨t, ht⟩⟩
  · constructor
    · rintro ⟨t, ht⟩
      cases ht.symm.trans he
    · intro hall
      have hvalid := hall c (htext ▸ List.mem_append_right _ List.mem_cons_self)
      rw [hvalid] at hc
      cases hc

/-- A text is refused as a tape exactly for its first character that is no symbol. -/
theorem ofJson_tape_eq_error_iff (text : String) (e : FormError) :
    (ofJson (.string text) : Except FormError Tape) = .error e ↔
      ∃ before c after, text.toList = before ++ c :: after ∧
        (∀ b ∈ before, isSymbolChar b = true) ∧ isSymbolChar c = false ∧
        e = .invalidSymbol ⟨c⟩ := by
  rcases ofJson_tape_cases text with ⟨t, ht, hall⟩ | ⟨before, c, after, htext, hb, hc, he⟩
  · constructor
    · intro h
      cases ht.symm.trans h
    · rintro ⟨before, c, after, htext, -, hc, -⟩
      have hvalid := hall c (htext ▸ List.mem_append_right _ List.mem_cons_self)
      rw [hvalid] at hc
      cases hc
  · constructor
    · intro h
      cases h.symm.trans he
      exact ⟨before, c, after, htext, hb, hc, rfl⟩
    · rintro ⟨before', c', after', htext', hb', hc', rfl⟩
      have hfirst : text.toList.find? (fun d ↦ !isSymbolChar d) = some c :=
        List.find?_eq_some_iff_append.mpr ⟨by simp [hc], before, after, htext, by simpa using hb⟩
      have hfirst' : text.toList.find? (fun d ↦ !isSymbolChar d) = some c' :=
        List.find?_eq_some_iff_append.mpr
          ⟨by simp [hc'], before', after', htext', by simpa using hb'⟩
      rw [he, Option.some.inj (hfirst.symm.trans hfirst')]

/-! ## All types -/

/-- The JSON form of a type is faithful: what is written is read back, and reading lets in what
spells a value and nothing else. -/
structure Faithful (α : Type) [JsonForm α] [Spelled α] : Prop where
  /-- A value is read from its spellings, and from nothing else. -/
  reads (j : Json) (a : α) : ofJson j = .ok a ↔ Spells j a
  /-- A value is read back from what it is written as. -/
  back (a : α) : Fits a → ofJson (toJson a) = .ok a
  /-- A value that was read is within the limits, and is read again from what it is written as. -/
  again (j : Json) (a : α) : ofJson j = .ok a → Fits a ∧ ofJson (toJson a) = .ok a
  /-- The symbols in a value that was read can be seen. -/
  visible (j : Json) (a : α) : ofJson j = .ok a → ∀ s ∈ Spelled.symbols a,
    Text.isBlank s.char = false ∧ Text.isControl s.char = false

/-- The JSON form of a type whose spellings are known is faithful. -/
theorem Spelled.faithful : Faithful α where
  reads _ _ := ofJson_eq_ok_iff
  back _ := ofJson_toJson
  again _ _ h := ⟨fits_of_ofJson h, ofJson_toJson (fits_of_ofJson h)⟩
  visible _ _ _ s _ := s.visible

/-- An outcome may be spelled with its fields in any order and among others. -/
example :
    ofJson (.object
      [("steps", .integer 3), ("note", .null), ("head", .integer 0), ("tape", .string "a"),
        ("state", .integer 1),
        ("halt", .object [("OutOfBounds", .object [("position", .integer (-1))])])]) =
      .ok (⟨.outOfBounds (-1), ⟨1⟩, ⟨#[⟨'a', rfl⟩]⟩, 0, 3⟩ : Outcome) := by
  rfl

/-- A blank in the tape of an input is found, however the input is spelled. -/
example :
    ofJson (.array [.string "a b", .integer 0]) =
      (.error (.invalidSymbol ⟨' '⟩) : Except FormError Run) := by
  rfl

/-- The JSON forms of runs are faithful. A text is a tape exactly if it holds symbols only; then it
is written back as it was, and else it is refused for its first character that is no symbol. -/
theorem json_faithful :
    (Faithful Symbol ∧ Faithful State ∧ Faithful Action ∧ Faithful Transition ∧ Faithful Tape ∧
      Faithful Halt ∧ Faithful Mode ∧ Faithful Run ∧ Faithful Outcome) ∧
    ∀ text : String,
      ((∃ t : Tape, ofJson (.string text) = .ok t) ↔ ∀ c ∈ text.toList, isSymbolChar c = true) ∧
      (∀ t : Tape, ofJson (.string text) = .ok t → toJson t = .string text) ∧
      ∀ e, (ofJson (.string text) : Except FormError Tape) = .error e ↔
        ∃ before c after, text.toList = before ++ c :: after ∧
          (∀ b ∈ before, isSymbolChar b = true) ∧ isSymbolChar c = false ∧
          e = .invalidSymbol ⟨c⟩ := by
  refine ⟨⟨Spelled.faithful, Spelled.faithful, Spelled.faithful, Spelled.faithful,
    Spelled.faithful, Spelled.faithful, Spelled.faithful, Spelled.faithful, Spelled.faithful⟩,
    fun text ↦ ⟨exists_ofJson_tape_iff text, fun t ht ↦ ?_, ofJson_tape_eq_error_iff text⟩⟩
  have hspells : Spells (.string text) t := Spelled.ofJson_eq_ok_iff.mp ht
  exact Eq.symm hspells

end TapeMachine
