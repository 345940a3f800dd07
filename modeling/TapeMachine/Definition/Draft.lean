import TapeMachine.Definition.Error

/-!
# Drafts

A draft gathers what the sections of a definition file say, in the order in which they stand. It is
refused at the first part that is at fault; a section whose kind came before is at fault as a whole.
-/

namespace TapeMachine.Definition

/-- The number that digits denote. -/
def readCount (d : Located Digits) : Except Error Nat :=
  match Text.count? d.value with
  | some n => .ok n
  | none => .error (.faulty .numberTooLarge d.span)

/-- The state that digits denote. -/
def readState (d : Located Digits) : Except Error State := State.mk <$> readCount d

/-- The symbol that a character is. -/
def readSymbol (c : Located Char) : Except Error Symbol :=
  (Symbol.ofChar c.value).mapError fun e ↦ .faulty (.invalidSymbol e) c.span

/-- The action that a letter stands for. -/
def readAction (c : Located Char) : Except Error Action :=
  (Action.ofCode c.value).mapError fun e ↦ .faulty (.invalidAction e) c.span

/-- The tape that a text shows. -/
def readTape (t : Located (List Char)) : Except Error Tape :=
  (Tape.ofChars t.value).mapError fun e ↦ .faulty (.invalidSymbol e) t.span

/-- The head position that a sign and digits denote. -/
def readPosition (p : Located PositionText) : Except Error Int :=
  let n := Text.signed p.value.negative p.value.digits
  if n < minPosition then .error (.faulty .headTooSmall p.span)
  else if maxPosition < n then .error (.faulty .headTooLarge p.span)
  else .ok n

/-- The rule that is written, its parts being read from left to right. -/
def readRule (r : Located RuleText) : Except Error (Located Rule) := do
  let state ← readState r.value.state
  let symbol ← readSymbol r.value.symbol
  let next ← readState r.value.next
  let write ← readSymbol r.value.write
  let action ← readAction r.value.action
  return ⟨⟨⟨state, symbol⟩, ⟨next, write, action⟩⟩, r.span⟩

/-- The input that is written, its tape being read first. -/
def readRun (r : RunText) : Except Error Run := do
  let tape ← readTape r.tape
  let head ← readPosition r.position
  return ⟨tape, head⟩

/-- What has been said so far. -/
structure Draft where
  name : Option String
  mode : Option Mode
  states : Option Nat
  start : Option State
  alphabet : Option (List Symbol)
  rules : Option (List (Located Rule))
  runs : Option (List Run)

namespace Draft

/-- Nothing has been said. -/
def empty : Draft := ⟨none, none, none, none, none, none, none⟩

/-- A section of this kind has been there. -/
def has (d : Draft) : SectionKind → Bool
  | .name => d.name.isSome
  | .mode => d.mode.isSome
  | .states => d.states.isSome
  | .start => d.start.isSome
  | .alphabet => d.alphabet.isSome
  | .transitions => d.rules.isSome
  | .runs => d.runs.isSome

/-- The draft with what a section says. -/
def say (d : Draft) : Section → Except Error Draft
  | .name text => return { d with name := some (String.ofList (Text.trim text)) }
  | .mode mode => return { d with mode := some mode }
  | .states count => return { d with states := some (← readCount count) }
  | .start state => return { d with start := some (← readState state) }
  | .alphabet symbols => return { d with alphabet := some (← symbols.mapM readSymbol) }
  | .transitions rules => return { d with rules := some (← rules.mapM readRule) }
  | .runs runs => return { d with runs := some (← runs.mapM readRun) }

/-- The draft with a further section, which must be the first of its kind. -/
def add (d : Draft) (s : Located Section) : Except Error Draft :=
  if d.has s.value.kind then .error (.faulty (.repeatedSection s.value.kind) s.span)
  else d.say s.value

/-- The draft of a list of sections. -/
def ofSections (sections : List (Located Section)) : Except Error Draft :=
  sections.foldlM add empty

end Draft

/-- A part of a draft that must be there. -/
def required {α : Type} (kind : SectionKind) : Option α → Except Error α
  | some a => .ok a
  | none => .error (.missing kind)

/-- The machine with a further rule, and the triggers that have been defined again so far. In a
strict file no trigger may be defined again. -/
def defineRule (mode : Mode) (sofar : Machine × List Trigger) (r : Located Rule) :
    Except Error (Machine × List Trigger) :=
  let (m, again) := sofar
  match m.table.replaced r.value, mode with
  | none, _ => .ok (m.define r.value, again)
  | some _, .normal => .ok (m.define r.value, again ++ [r.value.trigger])
  | some _, .strict => .error (.faulty (.repeatedRule r.value.trigger) r.span)

/-- The declared alphabet, or else every symbol that the rules read or write. -/
def alphabetOf (declared : Option (List Symbol)) (rules : List (Located Rule)) : List Symbol :=
  match declared with
  | some symbols => symbols
  | none => rules.flatMap fun r ↦ [r.value.trigger.symbol, r.value.transition.write]

/-- The program that a draft describes, before it is checked, with the triggers that were defined
again. The first state is the start, and the mode is normal, if nothing else is said. -/
def Draft.program (d : Draft) : Except Error (Program × List Trigger) := do
  let name ← required .name d.name
  let states ← required .states d.states
  let rules ← required .transitions d.rules
  let mode := d.mode.getD .normal
  let blank := Machine.blank states (d.start.getD ⟨0⟩)
  let machine := (alphabetOf d.alphabet rules).foldl Machine.addSymbol blank
  let (machine, again) ← rules.foldlM (defineRule mode) (machine, [])
  return (⟨name, mode, machine, d.runs.getD []⟩, again)

end TapeMachine.Definition
