import TapeMachine.Definition.Draft

/-!
# Definition files

A definition file describes a program: its name, its number of states, its rules, and if it likes
its mode, its start state, its alphabet and its inputs. Blank characters around a file do not belong
to it.
-/

namespace TapeMachine.Definition

/-- The sections of a definition file. -/
def sections (source : List Char) : Except Error (List (Located Section)) :=
  (Grammar.file.read source).mapError fun m ↦ .unexpected m.pos (RuleName.inOrder m.rules)

/-- The program of a list of sections, with what there is to be said about it. -/
def programOf (sections : List (Located Section)) : Except Error (Program × List Warning) := do
  let draft ← Draft.ofSections sections
  let (program, again) ← draft.program
  let findings ← program.check.mapError .finding
  return (program, again.map .redefined ++ findings.map .finding)

/-- The program that a definition file describes, with the warnings about it. -/
def parse (source : String) : Except Error (Program × List Warning) := do
  programOf (← sections (Text.trim source.toList))

end TapeMachine.Definition
