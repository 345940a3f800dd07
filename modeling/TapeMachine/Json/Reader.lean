import TapeMachine.Json

/-!
# Reading JSON

The value that a JSON text denotes. Of two fields of one name the last counts. Each reader takes the
characters that are left and gives back those it leaves. The first argument bounds the length of the
text that is left.
-/

namespace TapeMachine.Json

/-- The text without the white space of JSON at its start. -/
def skipSpace (cs : List Char) : List Char :=
  cs.dropWhile fun c ↦ c = ' ' || c = '\t' || c = '\n' || c = '\r'

/-- The value of a hexadecimal digit. -/
def hexDigit? (c : Char) : Option Nat :=
  if c.isDigit then some (c.toNat - '0'.toNat)
  else if 'a' ≤ c ∧ c ≤ 'f' then some (c.toNat - 'a'.toNat + 10)
  else if 'A' ≤ c ∧ c ≤ 'F' then some (c.toNat - 'A'.toNat + 10)
  else none

/-- The number of four hexadecimal digits. -/
def readHex4 : List Char → Option (Nat × List Char)
  | a :: b :: c :: d :: rest => do
    let a ← hexDigit? a
    let b ← hexDigit? b
    let c ← hexDigit? c
    let d ← hexDigit? d
    return (((a * 16 + b) * 16 + c) * 16 + d, rest)
  | _ => none

/-- The character of a code in the form of one or two units of sixteen bits. -/
def readUnits (cs : List Char) : Option (Char × List Char) := do
  let (high, rest) ← readHex4 cs
  if 0xD800 ≤ high ∧ high < 0xDC00 then
    match rest with
    | '\\' :: 'u' :: rest =>
      let (low, rest) ← readHex4 rest
      if 0xDC00 ≤ low ∧ low < 0xE000 then
        return (Char.ofNat (0x10000 + (high - 0xD800) * 0x400 + (low - 0xDC00)), rest)
      else none
    | _ => none
  else if 0xDC00 ≤ high ∧ high < 0xE000 then none
  else return (Char.ofNat high, rest)

/-- The character of an escape after its backslash. -/
def readEscape : List Char → Option (Char × List Char)
  | '"' :: rest => some ('"', rest)
  | '\\' :: rest => some ('\\', rest)
  | '/' :: rest => some ('/', rest)
  | 'b' :: rest => some ('\x08', rest)
  | 'f' :: rest => some ('\x0c', rest)
  | 'n' :: rest => some ('\n', rest)
  | 'r' :: rest => some ('\r', rest)
  | 't' :: rest => some ('\t', rest)
  | 'u' :: rest => readUnits rest
  | _ => none

/-- The rest of a string whose reversed beginning is `held`. -/
def readString : Nat → List Char → List Char → Option (String × List Char)
  | 0, _, _ => none
  | n + 1, held, cs =>
    match cs with
    | [] => none
    | c :: rest =>
      if c = '"' then some (String.ofList held.reverse, rest)
      else if c = '\\' then
        match readEscape rest with
        | none => none
        | some (e, rest) => readString n (e :: held) rest
      else if c.toNat < 0x20 then none
      else readString n (c :: held) rest

/-- The digits at the start and what follows them. -/
def spanDigits (cs : List Char) : List Char × List Char :=
  (cs.takeWhile Char.isDigit, cs.dropWhile Char.isDigit)

/-- The fraction at the start, which may be missing. -/
def readFraction : List Char → Option (List Char × List Char)
  | '.' :: cs =>
    match spanDigits cs with
    | ([], _) => none
    | (ds, rest) => some ('.' :: ds, rest)
  | cs => some ([], cs)

/-- The exponent at the start, which may be missing. -/
def readExponent : List Char → Option (List Char × List Char)
  | [] => some ([], [])
  | e :: cs =>
    if e = 'e' ∨ e = 'E' then
      let (sign, cs) :=
        match cs with
        | '+' :: rest => (['+'], rest)
        | '-' :: rest => (['-'], rest)
        | _ => ([], cs)
      match spanDigits cs with
      | ([], _) => none
      | (ds, rest) => some (e :: sign ++ ds, rest)
    else some ([], e :: cs)

/-- A number. -/
def readNumber (cs : List Char) : Option (Json × List Char) := do
  let (negative, cs) :=
    match cs with
    | '-' :: rest => (true, rest)
    | _ => (false, cs)
  let (ds, rest) := spanDigits cs
  if ds = [] ∨ (ds.head? = some '0' ∧ ds.length ≠ 1) then none
  else
    let (fraction, rest) ← readFraction rest
    let (exponent, rest) ← readExponent rest
    let minusZero := negative ∧ ds = ['0']
    if fraction = [] ∧ exponent = [] ∧ ¬minusZero then
      return (integer (Text.signed negative ds), rest)
    else
      let sign := if negative then ['-'] else []
      return (number (String.ofList (sign ++ ds ++ fraction ++ exponent)), rest)

mutual

/-- A value. -/
def readValue : Nat → List Char → Option (Json × List Char)
  | 0, _ => none
  | n + 1, cs =>
    match skipSpace cs with
    | '{' :: rest =>
      match skipSpace rest with
      | '}' :: rest => some (object [], rest)
      | rest => readFields n [] rest
    | '[' :: rest =>
      match skipSpace rest with
      | ']' :: rest => some (array [], rest)
      | rest => readItems n [] rest
    | '"' :: rest => (readString (n + 1) [] rest).map fun r ↦ (string r.1, r.2)
    | 'n' :: 'u' :: 'l' :: 'l' :: rest => some (null, rest)
    | 't' :: 'r' :: 'u' :: 'e' :: rest => some (bool true, rest)
    | 'f' :: 'a' :: 'l' :: 's' :: 'e' :: rest => some (bool false, rest)
    | cs => readNumber cs

/-- The items of an array after those in `held`, the last of which comes first. -/
def readItems : Nat → List Json → List Char → Option (Json × List Char)
  | 0, _, _ => none
  | n + 1, held, cs =>
    match readValue n cs with
    | none => none
    | some (item, rest) =>
      match skipSpace rest with
      | ',' :: rest => readItems n (item :: held) rest
      | ']' :: rest => some (array (item :: held).reverse, rest)
      | _ => none

/-- The fields of an object after those in `held`. -/
def readFields : Nat → List (String × Json) → List Char → Option (Json × List Char)
  | 0, _, _ => none
  | n + 1, held, cs =>
    match skipSpace cs with
    | '"' :: rest =>
      match readString (n + 1) [] rest with
      | none => none
      | some (name, rest) =>
        match skipSpace rest with
        | ':' :: rest =>
          match readValue n rest with
          | none => none
          | some (value, rest) =>
            match skipSpace rest with
            | ',' :: rest => readFields n (setField name value held) rest
            | '}' :: rest => some (object (setField name value held), rest)
            | _ => none
        | _ => none
    | _ => none

end

/-- The value of a text that holds one JSON value and nothing else but white space. -/
def ofText? (s : String) : Option Json :=
  let cs := s.toList
  match readValue (2 * cs.length + 2) cs with
  | some (j, rest) => if skipSpace rest = [] then some j else none
  | none => none

end TapeMachine.Json
