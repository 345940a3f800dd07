import TapeMachine.Text.Blank

/-!
# Lines, words and joined texts

A text as a list of lines, a line as a list of words, and lists of texts put together with a text
between neighbours.
-/

namespace TapeMachine.Text

/-- The lines of the text that begins with the reversed characters `held` and goes on with the list.
-/
def linesFrom (held : List Char) : List Char → List (List Char)
  | [] => if held = [] then [] else [held.reverse]
  | c :: cs =>
    if c = '\n' then
      (if held.head? = some '\r' then held.tail.reverse else held.reverse) :: linesFrom [] cs
    else linesFrom (c :: held) cs

/-- The lines of a text. A line ends at a line feed, with or without a carriage return before it, or
at the end of the text; what follows the last line feed is a line only if it is not empty. -/
def lines (cs : List Char) : List (List Char) := linesFrom [] cs

/-- The words of the text that begins with the reversed word `held` and goes on with the list. -/
def wordsFrom (held : List Char) : List Char → List (List Char)
  | [] => if held = [] then [] else [held.reverse]
  | c :: cs =>
    if isBlank c then
      if held = [] then wordsFrom [] cs else held.reverse :: wordsFrom [] cs
    else wordsFrom (c :: held) cs

/-- The longest stretches of a text that hold no blank character. -/
def words (cs : List Char) : List (List Char) := wordsFrom [] cs

/-- The text `part` stands somewhere in a text. -/
def occursIn (part : List Char) : List Char → Bool
  | [] => part.isEmpty
  | c :: cs => part.isPrefixOf (c :: cs) || occursIn part cs

/-- Puts texts together with `between` between neighbours. -/
def join (between : String) : List String → String
  | [] => ""
  | s :: rest => rest.foldl (fun acc t ↦ acc ++ between ++ t) s

/-- Puts texts together with a line feed after each. -/
def closed (ls : List String) : String := ls.foldl (fun acc l ↦ acc ++ l ++ "\n") ""

/-- The characters of texts put together with a line feed after each. -/
theorem toList_closed (ls : List String) :
    (closed ls).toList = ls.flatMap fun l ↦ l.toList ++ ['\n'] := by
  suffices h : ∀ s : String, (ls.foldl (fun acc l ↦ acc ++ l ++ "\n") s).toList =
      s.toList ++ ls.flatMap fun l ↦ l.toList ++ ['\n'] by
    simpa [closed] using h ""
  induction ls with
  | nil => simp
  | cons l ls ih =>
    intro s
    rw [List.foldl_cons, ih]
    simp [String.toList_append]

example : lines "a\r\n\nb\r".toList = ["a".toList, [], "b\r".toList] := by decide
example : words " a\tbc ".toList = ["a".toList, "bc".toList] := by decide
example : join ", " ["a", "b", "c"] = "a, b, c" := by decide

end TapeMachine.Text
