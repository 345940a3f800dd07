import TapeMachine.Text.Wrap
import TapeMachine.Workbench

/-!
# The screen of the workbench

The screen is a stack of boxes with a border, a title in it, and one column free at either side:
what program and input are run, then the definition or the configuration beside the state of the
machine and the tape or the help, and at last the status. The definition, the configuration and the
tape are wrapped; other lines that are too long, and rows too many, are cut off.

A row is made of cells of one column. A glyph that takes more columns stands in the first of its
cells, and the others hold a blank.
-/

namespace TapeMachine.Workbench

/-- What stands in a cell: a glyph. -/
abbrev Cell : Type := List Char

/-- A cell without a mark. -/
def blankCell : Cell := [' ']

/-- A row of the screen. -/
abbrev Row : Type := List Cell

/-- A line of text in parts; no grapheme reaches from one part into the next. -/
abbrev Line : Type := List (List Char)

/-- The glyphs of a line. -/
def glyphsOf (line : Line) : List Text.Glyph := line.flatMap Text.glyphs

/-- The cells of glyphs. A glyph that takes no column has none. -/
def cellsOf (glyphs : List Text.Glyph) : Row :=
  glyphs.flatMap fun g ↦
    match g.width with
    | 0 => []
    | more + 1 => g.chars :: List.replicate more blankCell

/-- The cells of glyphs in so much room, behind the reversed cells `done`. A glyph that takes no
column joins the one in the cell before it. -/
def joinedCells (room : Nat) (done : Row) : List Text.Glyph → Row
  | [] => done.reverse
  | g :: gs =>
    if room < g.width then done.reverse
    else
      match g.width, done with
      | 0, [] => joinedCells room [] gs
      | 0, cell :: before => joinedCells room ((cell ++ g.chars) :: before) gs
      | more + 1, _ =>
        joinedCells (room - g.width) (List.replicate more blankCell ++ g.chars :: done) gs

/-- Lines that are cut off. -/
def cutRows (width : Nat) (lines : List Line) : List Row :=
  lines.map fun l ↦ cellsOf (Text.cut width (glyphsOf l))

/-- Lines that are wrapped. -/
def wrappedRows (width : Nat) (lines : List Line) : List Row :=
  lines.flatMap fun l ↦ (Text.wrap width (glyphsOf l)).map cellsOf

/-- Each character in a cell of its own. -/
def plainCells (s : String) : Row := s.toList.map fun c ↦ [c]

/-- A row cut off or filled with blanks to a width. -/
def fit (width : Nat) (row : Row) : Row :=
  row.take width ++ List.replicate (width - row.length) blankCell

/-- A row between two ends of a border. -/
def between (first : Char) (row : Row) (last : Char) : Row := [first] :: row ++ [[last]]

/-- A box of rows with its title `offset` columns from the corner; `width` and `height` count what
is within the border. -/
def box (width height offset : Nat) (title : String) (rows : List Row) : List Row :=
  let label := fit (min (title.length + 2) (width - offset)) (plainCells (" " ++ title ++ " "))
  let top := List.replicate offset ['─'] ++ label ++
    List.replicate (width - offset - label.length) ['─']
  let content := (rows.take height).map (fit (width - 2)) ++
    List.replicate (height - rows.length) (List.replicate (width - 2) blankCell)
  [between '╭' top '╮'] ++
  content.map (fun row ↦ between '│' (between ' ' row ' ') '│') ++
  [between '╰' (List.replicate width ['─']) '╯']

/-- Boxes of one height beside each other, with a free column between them. -/
def beside (left right : List Row) : List Row :=
  List.zipWith (fun l r ↦ l ++ blankCell :: r) left right

/-- The width of the screen within the border of a box that fills it. -/
def fullWidth : Nat := 196

/-- The width of the left half of the middle within the border. -/
def leftWidth : Nat := 96

/-- The width of the right half of the middle within the border. -/
def rightWidth : Nat := 97

/-- The height of the middle within the border. -/
def middleHeight : Nat := 30

/-- The words that begin a section of a definition. -/
def keywords : List String := Definition.SectionKind.all.map fun k ↦ k.keyword ++ ":"

/-- A line of a definition as it is shown: after a keyword, its words stand one blank apart. -/
def shownLine (line : List Char) : Line :=
  match (Text.words line).map String.ofList with
  | [] => [line]
  | first :: rest =>
    if first ∈ keywords then [first, " ", Text.join " " rest].map String.toList else [line]

/-- Which program and which of its inputs are run. -/
def infoLines (w : Workbench) : List Line :=
  let p := w.program
  let place :=
    if w.isCustom then " (Custom)"
    else " (" ++ Text.natural (w.programIndex + 1) ++ "/" ++
      Text.natural Catalogue.entries.length ++ ")"
  let run := match p.runs[w.runIndex]? with
    | some r => "\"" ++ r.tape.text ++ "\" @ " ++ Text.integer r.head ++ " (" ++
        Text.natural (w.runIndex + 1) ++ "/" ++ Text.natural p.runs.length ++ ")"
    | none => "no runs declared"
  [["Program: ", p.name ++ place], ["Run: ", run],
    ["States: " ++ Text.natural p.machine.numStates ++ " | Start: " ++ p.machine.start.text ++
      " | Rules: " ++ Text.natural p.machine.table.size]].map (List.map String.toList)

/-- The word for where a run stands. -/
def statusWord (w : Workbench) : String :=
  match w.execution.halt with
  | some .accepted => "ACCEPTED"
  | some .rejected => "REJECTED"
  | some (.undefined _ _) => "UNDEFINED"
  | some (.outOfBounds _) => "OUT OF BOUNDS"
  | none =>
    if w.isAtLimit then "STEP LIMIT" else if w.execution.steps = 0 then "READY" else "RUNNING"

/-- The state of the run and what stopped it, or may stop it. -/
def stateLines (w : Workbench) : List Line :=
  let detail := match w.execution.halt with
    | some h => h.text
    | none =>
      match w.limit? with
      | some limit => "Step limit: " ++ Text.natural limit
      | none => "Step limit: none"
  ["Current State: " ++ w.execution.state.text ++ " | Steps: " ++ Text.natural w.execution.steps ++
    " | Status: " ++ w.statusWord, detail].map fun s ↦ [s.toList]

/-- The tape, and where the head is. -/
def tapeLines (w : Workbench) : List Line :=
  let e := w.execution
  let head := "Head at position: " ++ Text.integer e.head ++ match e.symbol? with
    | some s => " (symbol: '" ++ s.text ++ "')"
    | none => " (off the tape)"
  [e.tape.toList.map fun s ↦ [' ', s.char, ' '], [head.toList]]

/-- What the keys do. -/
def helpLines (w : Workbench) : List Line :=
  ["Controls:",
    "  Space - Step forward",
    "  Enter - Run until the machine halts or hits the step limit",
    "  r - Reset the current run",
    "  n - Next declared run",
    "  p - Toggle auto-play",
    "  c - Toggle source / configuration",
    if w.isCustom then "  ← → - Program switching disabled (loaded from file/stdin)"
    else "  ← → - Switch programs",
    "  h - Toggle this help",
    "  q - Quit",
    "",
    "Actions: R moves right, L moves left, Y accepts, N rejects.",
    "A run halts when it accepts, rejects, finds no rule,",
    "or moves the head off either end of the tape."].map fun s ↦ [s.toList]

/-- What was said last, with a hint at the right end. -/
def statusRow (w : Workbench) : Row :=
  let hint := plainCells "h: help"
  let room := fullWidth - 2 - hint.length
  let status := "Auto-play: " ++ (if w.autoPlay then "ON" else "OFF") ++ " | " ++ w.message
  fit room (joinedCells room [] (Text.glyphs status.toList)) ++ hint

/-- The definition, or the configuration of the machine. -/
def leftBox (w : Workbench) : List Row :=
  let (title, lines) :=
    if w.showConfiguration then
      ("Configuration", (Report.configuration w.program.machine).map fun s ↦ [s.toList])
    else ("Source Code", (Text.lines w.source.toList).map shownLine)
  box leftWidth middleHeight 0 title (wrappedRows (leftWidth - 2) (lines.take middleHeight))

/-- The state of the machine above the tape or the help. -/
def rightBoxes (w : Workbench) : List Row :=
  let width := rightWidth - 2
  box rightWidth 2 0 "Machine State" (cutRows width w.stateLines) ++
  if w.showHelp then box rightWidth (middleHeight - 4) 0 "Help" (cutRows width w.helpLines)
  else box rightWidth (middleHeight - 4) 0 "Tape" (wrappedRows width w.tapeLines)

/-- The title of the screen. -/
def title : String := "tmsim - Turing Machine Simulator (TUI)"

/-- A row without the blanks at its end. -/
def dropBlanks (row : Row) : Row := (row.reverse.dropWhile (· = blankCell)).reverse

/-- The rows of the screen, without the blanks at their ends. -/
def screen (w : Workbench) : List String :=
  let info := box fullWidth 3 ((fullWidth - (title.length + 2)) / 2) title
    (cutRows (fullWidth - 2) w.infoLines)
  let middle := beside w.leftBox w.rightBoxes
  let status := box fullWidth 1 0 "Status" [w.statusRow]
  (info ++ middle ++ status).map fun row ↦ String.ofList (dropBlanks (blankCell :: row)).flatten

end TapeMachine.Workbench
