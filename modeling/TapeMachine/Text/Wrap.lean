import TapeMachine.Text.Glyph

/-!
# Wrapped lines

A line that is too long for its room goes on in further rows, broken at blanks where that is
possible. Blanks are kept, except for those at which a row is full. A line of blanks alone has an
empty row above it.
-/

namespace TapeMachine.Text

/-- A line that is being wrapped. -/
structure Wrapping where
  /-- The finished rows, the last one first. -/
  rows : List (List Glyph)
  /-- The row under way. -/
  row : List Glyph
  /-- The blanks after that row. -/
  blanks : List Glyph
  /-- The word after those blanks. -/
  word : List Glyph
  /-- The last glyph belongs to a word. -/
  inWord : Bool

namespace Wrapping

/-- Nothing has been read. -/
def empty : Wrapping := ⟨[], [], [], [], false⟩

/-- The word and the blanks before it are taken into the row. -/
def settle (w : Wrapping) : Wrapping :=
  { w with row := w.row ++ w.blanks ++ w.word, blanks := [], word := [] }

/-- Blanks without those that the rest of a full row has room for. -/
def dropFitting (room : Nat) : List Glyph → List Glyph
  | [] => []
  | g :: gs => if room < g.width then g :: gs else dropFitting (room - g.width) gs

/-- The row is finished. -/
def endRow (room : Nat) (w : Wrapping) : Wrapping :=
  { w with rows := w.row :: w.rows, row := [],
           blanks := dropFitting (room - columns w.row) w.blanks }

/-- A glyph is put behind what has been read. -/
def push (w : Wrapping) (g : Glyph) : Wrapping :=
  if g.isBlank then { w with blanks := w.blanks ++ [g], inWord := false }
  else { w with word := w.word ++ [g], inWord := true }

/-- A glyph is read. -/
def add (room : Nat) (w : Wrapping) (g : Glyph) : Wrapping :=
  if room < g.width then w
  else
    let overflows := w.row = [] && room < columns w.word + columns w.blanks + g.width
    let w := if (w.inWord && g.isBlank) || overflows then w.settle else w
    let held := columns w.row + columns w.blanks + columns w.word
    if room ≤ columns w.row || (0 < g.width && room ≤ held) then
      let w := w.endRow room
      if g.isBlank && w.blanks = [] then w else w.push g
    else w.push g

/-- The rows of a line that has been read. -/
def finish (w : Wrapping) : List (List Glyph) :=
  let above := if w.row = [] && w.word = [] && w.blanks ≠ [] then [] :: w.rows else w.rows
  let last := w.settle.row
  let rows := if last = [] then above else last :: above
  if rows = [] then [[]] else rows.reverse

end Wrapping

/-- The rows of a line in so much room. -/
def wrap (room : Nat) (line : List Glyph) : List (List Glyph) :=
  (line.foldl (Wrapping.add room) .empty).finish

/-- Every line has a row. -/
theorem wrap_ne_nil (room : Nat) (line : List Glyph) : wrap room line ≠ [] := by
  unfold wrap Wrapping.finish
  dsimp only
  repeat' split
  all_goals simp_all

end TapeMachine.Text
