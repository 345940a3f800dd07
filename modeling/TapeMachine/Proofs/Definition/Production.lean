import TapeMachine.Definition
import TapeMachine.Proofs.Peg.Derivation

/-!
# Productions of definition files

The grammar of definition files, one pattern for each production, and what the tokens of a
derivation say: which section each token of a section is, read off the tokens inside it and the text
that they show.
-/

namespace TapeMachine.Definition

/-! ### Productions -/

namespace Production

/-- A line break. -/
def newline : Pattern RuleName :=
  (Pattern.text "\n").choice ((Pattern.text "\r\n").choice (.text "\r"))

/-- What separates parts on a line. -/
def whitespace : Pattern RuleName := (Pattern.text " ").choice (.text "\t")

/-- A comment. -/
def comment : Pattern RuleName :=
  (Pattern.text "//").seq (newline.without.seq .any).many

/-- What is skipped between the parts of rules that are not atomic. -/
def layout : Pattern RuleName := whitespace.many.seq (comment.seq whitespace.many).many

/-- A decimal digit. -/
def asciiDigit : Pattern RuleName := .range '0' '9'

/-- A letter. -/
def asciiAlpha : Pattern RuleName := (Pattern.range 'a' 'z').choice (.range 'A' 'Z')

/-- The text of a name. -/
def text : Pattern RuleName :=
  .rule .text .atomic ((newline.choice (.text "//")).without.seq .any).some

/-- A mode. -/
def modeValue : Pattern RuleName :=
  .rule .modeValue .atomic ((Pattern.text "normal").choice (.text "strict"))

/-- A number. -/
def count : Pattern RuleName := .rule .count .atomic asciiDigit.some

/-- A state. -/
def state : Pattern RuleName :=
  .rule .state .compound ((Pattern.text "q").optional.seq count)

/-- The letter of an action. -/
def action : Pattern RuleName := .rule .action .atomic asciiAlpha

/-- A head position. -/
def position : Pattern RuleName :=
  .rule .position .atomic ((Pattern.text "-").optional.seq asciiDigit.some)

/-- A character between single quotes. -/
def symbolChar : Pattern RuleName :=
  .rule .symbolChar .atomic (((Pattern.text "'").choice newline).without.seq .any)

/-- A quoted symbol. -/
def quotedSymbol : Pattern RuleName :=
  .rule .quotedSymbol .compound ((Pattern.text "'").seq (symbolChar.seq (.text "'")))

/-- A symbol without quotes. -/
def bareSymbol : Pattern RuleName :=
  .rule .bareSymbol .atomic
    (((Pattern.text " ").choice <| (Pattern.text "\t").choice <| (Pattern.text ",").choice <|
      (Pattern.text "(").choice <| (Pattern.text ")").choice <| (Pattern.text "'").choice <|
      (Pattern.text "\"").choice newline).without.seq .any)

/-- A symbol. -/
def symbol : Pattern RuleName := .rule .symbol .compound (quotedSymbol.choice bareSymbol)

/-- What stands between the quotes of a tape. -/
def tapeInner : Pattern RuleName :=
  .rule .tapeInner .atomic (((Pattern.text "\"").choice newline).without.seq .any).many

/-- A tape. -/
def tape : Pattern RuleName :=
  .rule .tape .compound ((Pattern.text "\"").seq (tapeInner.seq (.text "\"")))

/-- The section with the name. -/
def name : Pattern RuleName := .rule .name .plain ((Pattern.text "name:").seq text)

/-- The section with the mode. -/
def mode : Pattern RuleName := .rule .mode .plain ((Pattern.text "mode:").seq modeValue)

/-- The section with the number of states. -/
def states : Pattern RuleName := .rule .states .plain ((Pattern.text "states:").seq count)

/-- The section with the start state. -/
def start : Pattern RuleName := .rule .start .plain ((Pattern.text "start:").seq state)

/-- The section with the alphabet. -/
def alphabet : Pattern RuleName :=
  .rule .alphabet .plain
    ((Pattern.text "alphabet:").seq (symbol.seq ((Pattern.text ",").seq symbol).many))

/-- A rule of the table. -/
def transition : Pattern RuleName :=
  .rule .transition .plain
    ((Pattern.text "(").seq <| state.seq <| (Pattern.text ",").seq <| symbol.seq <|
      (Pattern.text ")").seq <| (Pattern.text "->").seq <| (Pattern.text "(").seq <| state.seq <|
      (Pattern.text ",").seq <| symbol.seq <| (Pattern.text ",").seq <| action.seq <| .text ")")

/-- The section with the rules. -/
def transitions : Pattern RuleName :=
  .rule .transitions .plain
    ((Pattern.text "transitions:").seq (newline.some.seq transition).many)

/-- An input. -/
def run : Pattern RuleName :=
  .rule .run .plain (tape.seq ((Pattern.text "@").seq position))

/-- The section with the inputs. -/
def runs : Pattern RuleName :=
  .rule .runs .plain ((Pattern.text "runs:").seq (newline.some.seq run).many)

/-- A section of any kind. -/
def anySection : Pattern RuleName :=
  name.choice <| mode.choice <| states.choice <| start.choice <| alphabet.choice <|
    transitions.choice runs

/-- The end of the file. -/
def endOfInput : Pattern RuleName := .rule .endOfInput .plain .ends

/-- A definition file. -/
def program : Pattern RuleName :=
  .rule .program .plain
    (Pattern.starts.seq <| newline.many.seq <| (anySection.seq newline.many).many.seq endOfInput)

end Production

/-- A text has a derivation from the grammar, with these tokens. -/
def HasTokens (text : List Char) (tokens : List (Token RuleName)) : Prop :=
  ∃ next, Derives Production.layout .loose Production.program (Peg.Cursor.ofText text)
    (some (tokens, next))

end TapeMachine.Definition

/-! ### What tokens say -/

namespace TapeMachine.Token

open TapeMachine.Definition

/-- The rule of a token. -/
def rule {ρ : Type} : Token ρ → ρ
  | node r _ _ _ => r

/-- The place of a token. -/
def span {ρ : Type} : Token ρ → Span
  | node _ s _ _ => s

/-- The text of a token. -/
def text {ρ : Type} : Token ρ → List Char
  | node _ _ w _ => w

/-- The tokens inside a token. -/
def inner {ρ : Type} : Token ρ → List (Token ρ)
  | node _ _ _ ts => ts

section Node

variable {ρ : Type} (r : ρ) (s : Span) (w : List Char) (ts : List (Token ρ))

@[simp] theorem rule_node : (node r s w ts).rule = r := rfl

@[simp] theorem span_node : (node r s w ts).span = s := rfl

@[simp] theorem text_node : (node r s w ts).text = w := rfl

@[simp] theorem inner_node : (node r s w ts).inner = ts := rfl

end Node

/-- The text of a token at its place. -/
def located (t : Token RuleName) : Located (List Char) := ⟨t.text, t.span⟩

/-- The number of a state is the token inside. -/
def stateDigits? (t : Token RuleName) : Option (Located Digits) := t.inner.head?.map located

/-- The character of a symbol: the first of the token inside, or of the token inside that if it is
quoted. The place is that of the symbol with its quotes. -/
def symbolChar? (t : Token RuleName) : Option (Located Char) := do
  let s ← t.inner.head?
  let shown ← if s.rule = .quotedSymbol then s.inner.head? else some s
  return ⟨← shown.text.head?, t.span⟩

/-- The letter of an action. -/
def actionLetter? (t : Token RuleName) : Option (Located Char) := do
  return ⟨← t.text.head?, t.span⟩

/-- The sign and the digits of a head position. -/
def positionText (t : Token RuleName) : Located PositionText :=
  match t.text with
  | '-' :: ds => ⟨⟨true, ds⟩, t.span⟩
  | ds => ⟨⟨false, ds⟩, t.span⟩

/-- The parts of a rule of the table: its state, its symbol, the next state, the symbol to write,
the action. -/
def ruleText? : List (Token RuleName) → Option RuleText
  | [state, symbol, next, write, action] => do
    return ⟨← state.stateDigits?, ← symbol.symbolChar?, ← next.stateDigits?,
      ← write.symbolChar?, ← action.actionLetter?⟩
  | _ => none

/-- The parts of an input: its tape without quotes, and its head position. -/
def runText? : List (Token RuleName) → Option RunText
  | [tape, position] => do return ⟨(← tape.inner.head?).located, position.positionText⟩
  | _ => none

/-- The parts of a section, by the rule of the section. -/
def sectionText? : RuleName → List (Token RuleName) → Option Section
  | .name, [text] => some (.name text.text)
  | .mode, [mode] => some (.mode (if mode.text = "strict".toList then .strict else .normal))
  | .states, [count] => some (.states count.located)
  | .start, [state] => state.stateDigits?.map .start
  | .alphabet, symbols => (symbols.mapM symbolChar?).map .alphabet
  | .transitions, rules =>
    (rules.mapM fun r ↦ (ruleText? r.inner).map (⟨·, r.span⟩)).map .transitions
  | .runs, runs => (runs.mapM fun r ↦ runText? r.inner).map .runs
  | _, _ => none

/-- A section. -/
def section? (t : Token RuleName) : Option (Located Section) :=
  (sectionText? t.rule t.inner).map (⟨·, t.span⟩)

end TapeMachine.Token
