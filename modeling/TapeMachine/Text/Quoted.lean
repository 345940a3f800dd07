import TapeMachine.Text.Shapeless

/-!
# Quoted characters and texts

The form in which messages show a character or a text: between quotes, with the usual short escapes,
and with shapeless characters shown by their code in braces.
-/

namespace TapeMachine.Text

/-- The code of a character in lower-case hexadecimal digits, without leading zeros. -/
def hexCode (c : Char) : String := String.ofList (Nat.toDigits 16 c.toNat)

/-- A character as it stands between two quotes of the kind `quote`. -/
def escape (quote c : Char) : String :=
  if c = '\x00' then "\\0"
  else if c = '\t' then "\\t"
  else if c = '\r' then "\\r"
  else if c = '\n' then "\\n"
  else if c = quote || c = '\\' then "\\" ++ c.toString
  else if isShapeless c then "\\u\x7b" ++ hexCode c ++ "\x7d"
  else c.toString

/-- A character in single quotes. -/
def quoteChar (c : Char) : String := "'" ++ escape '\'' c ++ "'"

/-- A text in double quotes. -/
def quote (s : String) : String :=
  "\"" ++ s.foldl (fun acc c ↦ acc ++ escape '"' c) "" ++ "\""

example : quoteChar ' ' = "' '" := by decide
example : quoteChar '\'' = "'\\''" := by decide
example : quoteChar '"' = "'\"'" := by decide
example : quoteChar '\u0007' = "'\\u\x7b7\x7d'" := by decide

end TapeMachine.Text
