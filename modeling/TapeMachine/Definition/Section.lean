import TapeMachine.Peg
import TapeMachine.Program

/-!
# Sections of a definition file

The parts of a definition file as they are written, before their numbers, symbols and letters are
given a meaning.
-/

namespace TapeMachine.Definition

/-- The digits of a number. -/
abbrev Digits : Type := List Char

/-- A rule as it is written. -/
structure RuleText where
  state : Located Digits
  symbol : Located Char
  next : Located Digits
  write : Located Char
  action : Located Char
  deriving DecidableEq

/-- A head position as it is written. -/
structure PositionText where
  negative : Bool
  digits : Digits
  deriving DecidableEq

/-- An input as it is written. -/
structure RunText where
  tape : Located (List Char)
  position : Located PositionText
  deriving DecidableEq

/-- A section as it is written. -/
inductive Section where
  | name (text : List Char)
  | mode (mode : Mode)
  | states (count : Located Digits)
  | start (state : Located Digits)
  | alphabet (symbols : List (Located Char))
  | transitions (rules : List (Located RuleText))
  | runs (runs : List RunText)
  deriving DecidableEq

/-- The kinds of sections. -/
inductive SectionKind where
  | name
  | mode
  | states
  | start
  | alphabet
  | transitions
  | runs
  deriving DecidableEq, Repr

/-- The keyword of a kind of section, without its colon. -/
def SectionKind.keyword : SectionKind → String
  | name => "name"
  | mode => "mode"
  | states => "states"
  | start => "start"
  | alphabet => "alphabet"
  | transitions => "transitions"
  | runs => "runs"

/-- All kinds of sections. -/
def SectionKind.all : List SectionKind := [name, mode, states, start, alphabet, transitions, runs]

/-- The kind of a section. -/
def Section.kind : Section → SectionKind
  | name _ => .name
  | mode _ => .mode
  | states _ => .states
  | start _ => .start
  | alphabet _ => .alphabet
  | transitions _ => .transitions
  | runs _ => .runs

end TapeMachine.Definition
