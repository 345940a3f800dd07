import TapeMachine.Definition.Error

/-!
# Excerpts

The text in which an error is shown in its file: the place, the lines it touches, an underline, and
the message. A line ends behind its line feed.
-/

namespace TapeMachine.Definition

/-- A place by line and column, both counted from one. -/
structure Place where
  line : Nat
  column : Nat
  deriving DecidableEq, Repr

/-- The number of characters between a place and the start of its line. -/
def indentAt (source : List Char) (pos : Nat) : Nat :=
  ((source.take pos).reverse.takeWhile (· ≠ '\n')).length

/-- The line and the column of a place. -/
def placeAt (source : List Char) (pos : Nat) : Place :=
  ⟨(source.take pos).count '\n' + 1, indentAt source pos + 1⟩

/-- The number of bytes before a place. -/
def byteAt (source : List Char) (pos : Nat) : Nat :=
  (source.take pos).foldl (fun n c ↦ n + c.utf8Size) 0

/-- A text up to its first line feed, with it. -/
def firstLine (cs : List Char) : List Char :=
  match cs.dropWhile (· ≠ '\n') with
  | [] => cs
  | _ :: _ => cs.takeWhile (· ≠ '\n') ++ ['\n']

/-- The whole line of a place, with its end. -/
def lineAt (source : List Char) (pos : Nat) : List Char :=
  firstLine (source.drop (pos - indentAt source pos))

/-- A line with a mark for each character that ends a line. -/
def markBreaks (line : List Char) : List Char :=
  line.map fun c ↦ if c = '\r' then '␍' else if c = '\n' then '␊' else c

/-- A line without the characters that end a line. -/
def dropBreaks (line : List Char) : List Char := line.filter fun c ↦ !Grammar.isBreak c

/-- The blanks below a line up to a column; a tab stays a tab. -/
def indent (line : List Char) (column : Nat) : List Char :=
  (line.take (column - 1)).map fun c ↦ if c = '\t' then '\t' else ' '

/-- The underline of the columns from one up to before another. -/
def underline (start stop : Nat) : List Char :=
  '^' :: if 1 < stop - start then List.replicate (stop - start - 2) '-' ++ ['^'] else []

/-- What an error shows of its file. -/
structure Excerpt where
  /-- The places of the error: one, or the two ends of a stretch. -/
  place : Place
  stop : Option Place
  /-- The first line shown. -/
  line : List Char
  /-- The last line shown, if there are more lines than one. -/
  lastLine : Option (List Char)

namespace Excerpt

/-- The excerpt of a place. -/
def atPos (source : List Char) (pos : Nat) : Excerpt :=
  let line := lineAt source pos
  let onBreak := ((source.drop pos).head?.map Grammar.isBreak).getD false
  ⟨placeAt source pos, none, if onBreak then markBreaks line else dropBreaks line, none⟩

/-- The place where a stretch ends; behind a line feed it counts to the line that ends there. -/
def stopPlace (source : List Char) (pos : Nat) : Place :=
  let p := placeAt source pos
  if p.column = 1 then
    let before := placeAt source (pos - 1)
    ⟨before.line, before.column + 1⟩
  else p

/-- The excerpt of a stretch. -/
def atSpan (source : List Char) (span : Span) : Excerpt :=
  let stretch := (source.drop span.start).take (span.stop - span.start)
  let onBreak := (stretch.head?.map Grammar.isBreak).getD false ||
    (stretch.getLast?.map Grammar.isBreak).getD false
  let first := lineAt source span.start
  let sameLine := (placeAt source span.start).line = (placeAt source span.stop).line
  let last := lineAt source span.stop
  ⟨placeAt source span.start, some (stopPlace source span.stop),
    if onBreak then markBreaks first else dropBreaks first,
    if sameLine then none else some (if onBreak then last else markBreaks last)⟩

/-- The last line number that is shown. -/
def lastNumber (e : Excerpt) : Nat :=
  match e.stop with
  | none => e.place.line
  | some stop => max e.place.line stop.line

/-- The underline below the lines. An end that lies left of the start is underlined from it. -/
def marks (e : Excerpt) : List Char :=
  match e.stop with
  | none => indent e.line e.place.column ++ "^---".toList
  | some stop =>
    let (start, stop) :=
      if stop.column < e.place.column then (stop.column - 1, e.place.column + 1)
      else (e.place.column, stop.column)
    indent e.line start ++ underline start stop

/-- A line number at the right end of a column of this width. -/
def numberIn (width n : Nat) : String :=
  let number := Text.natural n
  String.ofList (List.replicate (width - number.length) ' ') ++ number

/-- The excerpt with a message, line by line. -/
def lines (e : Excerpt) (message : String) : List String :=
  let width := (Text.natural e.lastNumber).length
  let margin := String.ofList (List.replicate width ' ')
  let shown (n : Nat) (line : List Char) : String :=
    numberIn width n ++ " | " ++ String.ofList line
  let more := match e.lastLine, e.stop with
    | some last, some stop =>
      (if 1 < stop.line - e.place.line then [margin ++ " | ..."] else []) ++ [shown stop.line last]
    | _, _ => []
  [margin ++ "--> " ++ Text.natural e.place.line ++ ":" ++ Text.natural e.place.column,
    margin ++ " |", shown e.place.line e.line] ++ more ++
  [margin ++ " | " ++ String.ofList e.marks, margin ++ " |", margin ++ " = " ++ message]

end Excerpt

/-- A list of alternatives in words. -/
def alternatives : List String → String
  | [] => ""
  | [a] => a
  | [a, b] => a ++ " or " ++ b
  | names => Text.join ", " names.dropLast ++ ", or " ++ (names.getLast?.getD "")

/-- The excerpt that shows an error, if it has a place in its file. -/
def Error.excerpt? (source : List Char) : Error → Option Excerpt
  | unexpected pos _ => some (.atPos source pos)
  | faulty _ span => some (.atSpan source span)
  | missing _ | finding _ => none

/-- The error in words, without its place. -/
def Error.reason : Error → String
  | unexpected _ expected => "expected " ++ alternatives (expected.map RuleName.label)
  | faulty fault _ => fault.message
  | missing kind => "Missing '" ++ kind.keyword ++ "' section"
  | finding f => f.text

/-- The error in words, with its place in the file if it has one. -/
def Error.message (source : String) (e : Error) : String :=
  match e.excerpt? (Text.trim source.toList) with
  | some excerpt => "Program parsing error: " ++ Text.join "\n" (excerpt.lines e.reason)
  | none => "Program validation error: " ++ e.reason

end TapeMachine.Definition
