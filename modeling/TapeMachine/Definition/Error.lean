import TapeMachine.Definition.Grammar
import TapeMachine.Finding

/-!
# Errors and warnings of definition files

A definition file is refused because it has the wrong form, because a part of it has no meaning,
because a section is missing, or because it is strict and something about it is likely to be a
mistake. Places are counted in characters of the file without the blank characters at its ends.
-/

namespace TapeMachine.Definition

/-- What is wrong with a part that has the right form. -/
inductive Fault where
  /-- A section of this kind came before. -/
  | repeatedSection (kind : SectionKind)
  /-- A rule for this trigger came before, in a strict file. -/
  | repeatedRule (trigger : Trigger)
  /-- A number is greater than every count. -/
  | numberTooLarge
  /-- A head position is beyond the greatest. -/
  | headTooLarge
  /-- A head position is beyond the least. -/
  | headTooSmall
  /-- A character is no symbol. -/
  | invalidSymbol (e : InvalidSymbol)
  /-- A letter stands for no action. -/
  | invalidAction (e : InvalidAction)
  deriving DecidableEq

/-- The fault in words. -/
def Fault.message : Fault → String
  | repeatedSection kind => "Duplicate \"" ++ kind.keyword ++ ":\" declaration"
  | repeatedRule trigger =>
    "Duplicate transition rule: (" ++ trigger.state.text ++ ", " ++ trigger.symbol.text ++ ")"
  | numberTooLarge => "Invalid number: number too large to fit in target type"
  | headTooLarge => "Invalid head position: number too large to fit in target type"
  | headTooSmall => "Invalid head position: number too small to fit in target type"
  | invalidSymbol e => e.message
  | invalidAction e => e.message

/-- Why a definition file is refused. -/
inductive Error where
  /-- At this place one of these rules would have had to match. -/
  | unexpected (pos : Nat) (expected : List RuleName)
  /-- This part is at fault. -/
  | faulty (fault : Fault) (span : Span)
  /-- A section that must be there is missing. -/
  | missing (kind : SectionKind)
  /-- The file is strict, and this is the first finding. -/
  | finding (finding : Finding)
  deriving DecidableEq

/-- What is said about a definition file that is accepted. -/
inductive Warning where
  /-- A rule for this trigger came before and no longer counts. -/
  | redefined (trigger : Trigger)
  /-- A likely mistake. -/
  | finding (finding : Finding)
  deriving DecidableEq

/-- The warning in words. -/
def Warning.text : Warning → String
  | redefined _ => "transition redefined, keeping the last definition"
  | finding f => f.text

end TapeMachine.Definition
