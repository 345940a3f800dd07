import TapeMachine.Definition.Section

/-!
# Grammar of definition files

A definition file is a list of sections, each of them a keyword with what belongs to it. The parts
of a section may be separated by blanks, tabs and comments; a comment begins with two slashes and
ends before the line break. Names, tapes, symbols, states and numbers have no such parts. Line
breaks separate the rules of a table and the inputs; between sections they are free.
-/

namespace TapeMachine.Definition

/-- The names of the rules of the grammar, in the order in which they are listed as expected. -/
inductive RuleName where
  | endOfInput
  | program
  | name
  | mode
  | states
  | start
  | alphabet
  | transitions
  | transition
  | runs
  | run
  | text
  | modeValue
  | count
  | state
  | action
  | position
  | symbol
  | quotedSymbol
  | symbolChar
  | bareSymbol
  | tape
  | tapeInner
  deriving DecidableEq, Repr

namespace RuleName

/-- The name as it is listed. -/
def label : RuleName → String
  | endOfInput => "EOI"
  | program => "program"
  | name => "name"
  | mode => "mode"
  | states => "states"
  | start => "start"
  | alphabet => "alphabet"
  | transitions => "transitions"
  | transition => "transition"
  | runs => "runs"
  | run => "run"
  | text => "text"
  | modeValue => "mode_value"
  | count => "count"
  | state => "state"
  | action => "action"
  | position => "position"
  | symbol => "symbol"
  | quotedSymbol => "quoted_symbol"
  | symbolChar => "symbol_char"
  | bareSymbol => "bare_symbol"
  | tape => "tape"
  | tapeInner => "tape_inner"

/-- All names in the order in which they are listed. -/
def all : List RuleName :=
  [endOfInput, program, name, mode, states, start, alphabet, transitions, transition, runs, run,
    text, modeValue, count, state, action, position, symbol, quotedSymbol, symbolChar, bareSymbol,
    tape, tapeInner]

/-- The names of a list, each once, in the order in which they are listed. -/
def inOrder (names : List RuleName) : List RuleName := all.filter fun n ↦ n ∈ names

end RuleName

namespace Grammar

/-- Expressions over the rules of definition files. -/
abbrev Expr (α : Type) : Type 1 := Peg RuleName α

variable {α β : Type}

/-! ### Layout -/

/-- A character that ends a line. -/
def isBreak (c : Char) : Bool := c = '\n' || c = '\r'

/-- A line break in one of its three forms. -/
def lineBreak : Expr Unit :=
  (Peg.literal "\n").choice ((Peg.literal "\r\n").choice (Peg.literal "\r"))

/-- A blank or a tab. -/
def blank : Expr Char := .satisfying fun c ↦ c = ' ' || c = '\t'

/-- Two slashes and the rest of the line. -/
def comment : Expr (List Char) :=
  (Peg.literal "//").right (Peg.many (.satisfying fun c ↦ !isBreak c))

/-- What may stand between the parts of a section. -/
def gap : Expr Unit := (blank.many.seq (comment.seq blank.many).many).map fun _ ↦ ()

/-- Two parts with a gap between them. -/
def pair (first : Expr α) (second : Expr β) : Expr (α × β) := first.seq (gap.right second)

/-- A part after a text, with a gap between them. -/
def after (text : String) (part : Expr α) : Expr α := (Peg.literal text).right (gap.right part)

/-- A part before a text, with a gap between them. -/
def before (part : Expr α) (text : String) : Expr α := part.left (gap.right (Peg.literal text))

/-- A part as often as it matches, with a gap between neighbours. -/
def list (part : Expr α) : Expr (List α) :=
  (part.seq (gap.right part).many).optional.map fun
    | none => []
    | some (a, as) => a :: as

/-- Line breaks, one at least, with gaps between them. -/
def breaks : Expr Unit := (pair lineBreak (list lineBreak)).map fun _ ↦ ()

/-! ### Words -/

/-- The text of a name: the rest of the line up to a comment. -/
def text : Expr (Located (List Char)) :=
  .rule .text (Peg.some ((Peg.without (.literal "//")).right (.satisfying fun c ↦ !isBreak c)))

/-- A mode by its name. -/
def modeValue : Expr (Located Mode) :=
  .rule .modeValue
    (((Peg.literal "normal").map fun _ ↦ Mode.normal).choice
      ((Peg.literal "strict").map fun _ ↦ Mode.strict))

/-- A decimal digit. -/
def digit : Expr Char := .satisfying Char.isDigit

/-- A number. -/
def count : Expr (Located Digits) := .rule .count digit.some

/-- A state, with or without its letter. -/
def state : Expr (Located Digits) :=
  (Peg.rule .state ((Peg.literal "q").optional.right count)).map Located.value

/-- A letter. -/
def action : Expr (Located Char) := .rule .action (.satisfying Char.isAlpha)

/-- A head position. -/
def position : Expr (Located PositionText) :=
  .rule .position (((Peg.literal "-").optional.seq digit.some).map fun p ↦ ⟨p.1.isSome, p.2⟩)

/-- A character in single quotes, which may be any but a quote or a line break. -/
def quotedSymbol : Expr (Located (Located Char)) :=
  .rule .quotedSymbol
    ((Peg.literal "'").right
      (Peg.left (.rule .symbolChar (.satisfying fun c ↦ !(c = '\'' || isBreak c)))
        (Peg.literal "'")))

/-- The characters that stand for symbols only between quotes. -/
def isMark (c : Char) : Bool :=
  c = ' ' || c = '\t' || c = ',' || c = '(' || c = ')' || c = '\'' || c = '"'

/-- A character without quotes. -/
def bareSymbol : Expr (Located Char) :=
  .rule .bareSymbol (.satisfying fun c ↦ !(isMark c || isBreak c))

/-- A symbol, located with its quotes if it has them. -/
def symbol : Expr (Located Char) :=
  .rule .symbol ((quotedSymbol.map fun s ↦ s.value.value).choice (bareSymbol.map Located.value))

/-- A tape in double quotes; what lies between them is located. -/
def tape : Expr (Located (List Char)) :=
  (Peg.rule .tape
    ((Peg.literal "\"").right
      (Peg.left (.rule .tapeInner (Peg.many (.satisfying fun c ↦ !(c = '"' || isBreak c))))
        (Peg.literal "\"")))).map Located.value

/-! ### Sections -/

/-- A rule of a table. -/
def transition : Expr (Located RuleText) :=
  .rule .transition
    ((after "(" (pair state (after "," (pair symbol (after ")" (after "->" (after "(" (pair state
      (after "," (pair symbol (after "," (before action ")")))))))))))).map
      fun (state, symbol, next, write, action) ↦ ⟨state, symbol, next, write, action⟩)

/-- An input. -/
def run : Expr (Located RunText) :=
  .rule .run ((pair tape (after "@" position)).map fun (tape, position) ↦ ⟨tape, position⟩)

/-- A section of any kind. -/
def anySection : Expr (Located Section) :=
  (Peg.rule .name ((after "name:" text).map fun t ↦ Section.name t.value)).choice <|
  (Peg.rule .mode ((after "mode:" modeValue).map fun m ↦ Section.mode m.value)).choice <|
  (Peg.rule .states ((after "states:" count).map Section.states)).choice <|
  (Peg.rule .start ((after "start:" state).map Section.start)).choice <|
  (Peg.rule .alphabet
    ((after "alphabet:" (pair symbol (list (after "," symbol)))).map
      fun (first, others) ↦ Section.alphabet (first :: others))).choice <|
  (Peg.rule .transitions
    ((after "transitions:" (list ((pair breaks transition).map Prod.snd))).map
      Section.transitions)).choice <|
  Peg.rule .runs
    ((after "runs:" (list ((pair breaks run).map fun r ↦ r.2.value))).map Section.runs)

/-- A definition file: sections, with line breaks before, between and after them. -/
def file : Expr (List (Located Section)) :=
  (Peg.rule .program
    (gap.right
      (pair (list lineBreak)
        (pair (list ((pair anySection (list lineBreak)).map Prod.fst))
          (Peg.rule .endOfInput .ends))))).map fun r ↦ r.value.2.1

end Grammar

end TapeMachine.Definition
