import TapeMachine.Text.Blank
import TapeMachine.Text.Quoted
import TapeMachine.SortedMap

/-!
# Symbols

A symbol is a character that can be seen on a tape and in a definition file: neither blank nor a
control character. Symbols are ordered by code point.
-/

namespace TapeMachine

/-- The characters that are symbols. -/
def isSymbolChar (c : Char) : Bool := !(Text.isBlank c || Text.isControl c)

/-- One tape character. -/
structure Symbol where
  char : Char
  valid : isSymbolChar char = true
  deriving DecidableEq

/-- The refusal of a character that is no symbol. -/
structure InvalidSymbol where
  char : Char
  deriving DecidableEq, Repr

/-- The refusal in words. -/
def InvalidSymbol.message (e : InvalidSymbol) : String :=
  "Invalid symbol: " ++ Text.quoteChar e.char

namespace Symbol

/-- The symbol of a character. -/
def ofChar (c : Char) : Except InvalidSymbol Symbol :=
  if h : isSymbolChar c then .ok ⟨c, h⟩ else .error ⟨c⟩

/-- Symbols are equal if their characters are. -/
theorem ext {a b : Symbol} (h : a.char = b.char) : a = b := by
  cases a
  cases b
  simpa using h

/-- A symbol is read from its own character. -/
theorem ofChar_char (s : Symbol) : ofChar s.char = .ok s := by
  simp [ofChar, s.valid]

/-- A character is read as a symbol exactly if it is that symbol's character. -/
theorem ofChar_eq_ok_iff {c : Char} {s : Symbol} : ofChar c = .ok s ↔ s.char = c := by
  constructor
  · intro h
    unfold ofChar at h
    split at h
    · cases h; rfl
    · cases h
  · rintro rfl
    exact ofChar_char s

/-- A character is refused exactly if it is blank or a control character. -/
theorem ofChar_eq_error_iff {c : Char} {e : InvalidSymbol} :
    ofChar c = .error e ↔ e = ⟨c⟩ ∧ (Text.isBlank c = true ∨ Text.isControl c = true) := by
  have hv : isSymbolChar c = false ↔ Text.isBlank c = true ∨ Text.isControl c = true := by
    unfold isSymbolChar
    cases Text.isBlank c <;> cases Text.isControl c <;> simp
  rw [← hv]
  cases h : isSymbolChar c <;> simp [ofChar, h, eq_comm]

/-- Symbols are ordered by code point. -/
instance : Ranked Symbol := ⟨fun s ↦ s.char.toNat, fun h ↦ ext (Char.toNat_inj.1 h)⟩

/-- The symbol as a text of one character. -/
def text (s : Symbol) : String := s.char.toString

end Symbol

/-- The symbols of a list of characters, or the refusal of the first that is none. -/
def Symbol.ofChars (cs : List Char) : Except InvalidSymbol (List Symbol) := cs.mapM Symbol.ofChar

/-- A list of characters holds symbols only, which are read, or it is refused for the first
character in it that is none. -/
theorem Symbol.ofChars_cases (cs : List Char) :
    (∃ l : List Symbol, cs = l.map Symbol.char ∧ ofChars cs = .ok l) ∨
      ∃ before c after, cs = before ++ c :: after ∧ (∀ b ∈ before, isSymbolChar b = true) ∧
        isSymbolChar c = false ∧ ofChars cs = .error ⟨c⟩ := by
  simp only [ofChars]
  induction cs with
  | nil => exact .inl ⟨[], rfl, rfl⟩
  | cons c cs ih =>
    rw [List.mapM_cons]
    by_cases hc : isSymbolChar c = true
    · have hread : ofChar c = .ok ⟨c, hc⟩ := ofChar_char ⟨c, hc⟩
      rw [hread]
      rcases ih with ⟨l, rfl, hl⟩ | ⟨before, d, after, rfl, hbefore, hd, herror⟩
      · rw [hl]
        exact .inl ⟨⟨c, hc⟩ :: l, rfl, rfl⟩
      · rw [herror]
        exact .inr ⟨c :: before, d, after, rfl, by simpa using ⟨hc, hbefore⟩, hd, rfl⟩
    · have hrefused : ofChar c = .error ⟨c⟩ := by rw [ofChar, dif_neg hc]
      rw [hrefused]
      exact .inr ⟨[], c, cs, rfl, by simp, by simpa using hc, rfl⟩

/-- Characters are read as symbols exactly if they are the characters of these symbols. -/
theorem Symbol.ofChars_eq_ok_iff {cs : List Char} {l : List Symbol} :
    ofChars cs = .ok l ↔ cs = l.map Symbol.char := by
  have hinj : ∀ l l' : List Symbol, l.map Symbol.char = l'.map Symbol.char → l = l' :=
    fun l l' h ↦ (List.map_inj_right fun _ _ ↦ ext).mp h
  constructor
  · intro h
    rcases ofChars_cases cs with ⟨l', rfl, hl⟩ | ⟨before, c, after, -, -, -, herror⟩
    · rw [Except.ok.inj (h.symm.trans hl)]
    · cases h.symm.trans herror
  · rintro rfl
    rcases ofChars_cases (l.map Symbol.char) with
      ⟨l', hl, hread⟩ | ⟨before, c, after, hcs, -, hc, -⟩
    · rw [hread, hinj l l' hl]
    · have hmem : c ∈ l.map Symbol.char := by
        rw [hcs]
        exact List.mem_append_right _ List.mem_cons_self
      obtain ⟨s, -, rfl⟩ := List.mem_map.mp hmem
      rw [s.valid] at hc
      cases hc

end TapeMachine
