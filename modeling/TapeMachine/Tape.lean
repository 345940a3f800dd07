import TapeMachine.Symbol

/-!
# Tapes

A tape is a row of cells that keeps its length. A head position is an integer and may lie off the
tape on either side.
-/

namespace TapeMachine

/-- A finite row of cells. -/
structure Tape where
  cells : Array Symbol
  deriving DecidableEq

namespace Tape

/-- The tape without cells. -/
def empty : Tape := ⟨#[]⟩

instance : Inhabited Tape := ⟨empty⟩

/-- The number of cells. -/
def size (t : Tape) : Nat := t.cells.size

/-- The symbols from left to right. -/
def toList (t : Tape) : List Symbol := t.cells.toList

/-- The tape with the symbols of a list. -/
def ofList (l : List Symbol) : Tape := ⟨l.toArray⟩

/-- The tape that a text shows, or the refusal of its first character that is no symbol. -/
def ofChars (cs : List Char) : Except InvalidSymbol Tape := ofList <$> Symbol.ofChars cs

/-- The tape as a text, one character a cell. -/
def text (t : Tape) : String := String.ofList (t.toList.map Symbol.char)

/-- The cell at a head position, if the position lies on the tape. -/
def index? (t : Tape) : Int → Option (Fin t.size)
  | .ofNat i => if h : i < t.size then some ⟨i, h⟩ else none
  | .negSucc _ => none

/-- The symbol in a cell. -/
def get (t : Tape) (i : Fin t.size) : Symbol :=
  have h : i.val < t.cells.size := i.isLt
  t.cells[i.val]

/-- The symbol at a head position, if the position lies on the tape. -/
def get? (t : Tape) (head : Int) : Option Symbol := (t.index? head).map t.get

/-- The tape with another symbol in a cell. -/
def write (t : Tape) (i : Fin t.size) (s : Symbol) : Tape :=
  have h : i.val < t.cells.size := i.isLt
  ⟨t.cells.set i.val s⟩

/-- A list of symbols is the content of its tape. -/
theorem toList_ofList (l : List Symbol) : (ofList l).toList = l := rfl

/-- A tape is determined by its content. -/
theorem ofList_toList (t : Tape) : ofList t.toList = t := rfl

/-- Tapes with the same content are equal. -/
theorem ext_toList {a b : Tape} (h : a.toList = b.toList) : a = b := by
  rw [← ofList_toList a, h, ofList_toList]

/-- The content has as many symbols as the tape has cells. -/
theorem length_toList (t : Tape) : t.toList.length = t.size := by
  simp [toList, size]

/-- Writing keeps the number of cells. -/
theorem size_write (t : Tape) (i : Fin t.size) (s : Symbol) : (t.write i s).size = t.size :=
  Array.size_set i.isLt

/-- Writing changes one symbol of the content. -/
theorem toList_write (t : Tape) (i : Fin t.size) (s : Symbol) :
    (t.write i s).toList = t.toList.set i.val s :=
  Array.toList_set t.cells i.val s i.isLt

/-- A position lies on the tape exactly if it is not negative and below the number of cells. -/
theorem isSome_index?_iff {t : Tape} {head : Int} :
    (t.index? head).isSome = true ↔ 0 ≤ head ∧ head < t.size := by
  cases head with
  | ofNat i =>
    unfold index?
    split <;> simp_all
  | negSucc i =>
    constructor
    · intro h
      cases h
    · intro h
      omega

end Tape

end TapeMachine
