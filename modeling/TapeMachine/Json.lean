import TapeMachine.Text.Lines
import TapeMachine.Text.Numeral

/-!
# JSON values

JSON values whose objects keep the order of their fields, and their two written forms: in one line,
and with one line for each item and field, indented by two blanks a level.
-/

namespace TapeMachine

/-- A JSON value. A number written with a fraction or an exponent, or as minus zero, is no integer;
its text is kept. -/
inductive Json where
  | null
  | bool (b : Bool)
  | integer (n : Int)
  | number (text : String)
  | string (s : String)
  | array (items : List Json)
  | object (fields : List (String × Json))

namespace Json

instance : Inhabited Json := ⟨null⟩

/-- A natural number as a JSON value. -/
def natural (n : Nat) : Json := integer n

/-- A list of values as a JSON value. -/
def list {α : Type} (f : α → Json) (l : List α) : Json := array (l.map f)

/-- The value of an optional part; a missing one is null. -/
def option {α : Type} (f : α → Json) : Option α → Json
  | none => null
  | some a => f a

/-- A code of four hexadecimal digits. -/
def hex4 (n : Nat) : String :=
  let ds := Nat.toDigits 16 n
  String.ofList (List.replicate (4 - ds.length) '0' ++ ds)

/-- A character as it stands in a JSON string. -/
def escape (c : Char) : String :=
  if c = '"' then "\\\""
  else if c = '\\' then "\\\\"
  else if c = '\n' then "\\n"
  else if c = '\r' then "\\r"
  else if c = '\t' then "\\t"
  else if c = '\x08' then "\\b"
  else if c = '\x0c' then "\\f"
  else if c.toNat < 0x20 then "\\u" ++ hex4 c.toNat
  else c.toString

/-- A text as a JSON string, written at the end of `out`. -/
def quoteTo (out : String) (s : String) : String :=
  s.foldl (fun acc c ↦ acc ++ escape c) (out ++ "\"") ++ "\""

/-- The text of a value that has no parts, written at the end of `out`. -/
def writeLeaf (out : String) : Json → String
  | null => out ++ "null"
  | bool b => out ++ if b then "true" else "false"
  | integer n => out ++ Text.integer n
  | number text => out ++ text
  | string s => quoteTo out s
  | array _ => out ++ "[]"
  | object _ => out ++ "\x7b\x7d"

mutual

/-- The value in one line, written at the end of `out`. -/
def writeCompact (out : String) : Json → String
  | array items => writeCompactItems (out ++ "[") true items ++ "]"
  | object fields => writeCompactFields (out ++ "\x7b") true fields ++ "\x7d"
  | leaf => writeLeaf out leaf

/-- The items of an array in one line. -/
def writeCompactItems (out : String) (first : Bool) : List Json → String
  | [] => out
  | item :: rest =>
    writeCompactItems (writeCompact (if first then out else out ++ ",") item) false rest

/-- The fields of an object in one line. -/
def writeCompactFields (out : String) (first : Bool) : List (String × Json) → String
  | [] => out
  | (name, value) :: rest =>
    let head := quoteTo (if first then out else out ++ ",") name ++ ":"
    writeCompactFields (writeCompact head value) false rest

end

/-- The value in one line. -/
def compact (j : Json) : String := writeCompact "" j

/-- The begin of a line on a level. -/
def newLine (level : Nat) : String := "\n" ++ String.ofList (List.replicate (2 * level) ' ')

mutual

/-- The value in lines, its parts one level deeper, written at the end of `out`. -/
def writePretty (level : Nat) (out : String) : Json → String
  | array (item :: rest) =>
    writePrettyItems (level + 1) (out ++ "[") true (item :: rest) ++ newLine level ++ "]"
  | object (field :: rest) =>
    writePrettyFields (level + 1) (out ++ "\x7b") true (field :: rest) ++ newLine level ++ "\x7d"
  | leaf => writeLeaf out leaf

/-- The items of an array, each in lines of its own. -/
def writePrettyItems (level : Nat) (out : String) (first : Bool) : List Json → String
  | [] => out
  | item :: rest =>
    let head := (if first then out else out ++ ",") ++ newLine level
    writePrettyItems level (writePretty level head item) false rest

/-- The fields of an object, each in lines of its own. -/
def writePrettyFields (level : Nat) (out : String) (first : Bool) : List (String × Json) → String
  | [] => out
  | (name, value) :: rest =>
    let head := quoteTo ((if first then out else out ++ ",") ++ newLine level) name ++ ": "
    writePrettyFields level (writePretty level head value) false rest

end

/-- The value in lines. -/
def pretty (j : Json) : String := writePretty 0 "" j

/-- The value of a field; the first of its name counts. -/
def field? (name : String) : List (String × Json) → Option Json
  | [] => none
  | (n, v) :: rest => if n = name then some v else field? name rest

/-- Gives a field its value, in the place of an earlier one of its name. -/
def setField (name : String) (value : Json) : List (String × Json) → List (String × Json)
  | [] => [(name, value)]
  | (n, v) :: rest =>
    if n = name then (n, value) :: rest else (n, v) :: setField name value rest

end Json

end TapeMachine
