import TapeMachine.Json
import TapeMachine.Program
import TapeMachine.Halt

/-!
# JSON forms

How the values of runs are written as JSON, and read back. Records are read from objects with their
fields in any order and further fields ignored, or from arrays of their fields in order. Of the bad
fields of an object, the one whose name comes first is reported.

What is read is a JSON value that is there as a whole. A variant with data then has its fields in an
object: an array of them is refused, though a decoder that reads straight from a text would take it.
-/

namespace TapeMachine

/-- Why a JSON value is no form of a value. -/
inductive FormError where
  /-- It holds a character that is no symbol where a symbol has to be. -/
  | invalidSymbol (e : InvalidSymbol)
  /-- It has another shape, or a number beyond the limits. -/
  | malformed
  deriving DecidableEq, Repr

/-- Types whose values have a JSON form. -/
class JsonForm (α : Type) where
  /-- The form of a value. -/
  toJson : α → Json
  /-- The value of a form. -/
  ofJson : Json → Except FormError α

export JsonForm (toJson ofJson)

namespace JsonForm

variable {α : Type} [JsonForm α]

/-- The value of a field, if the object has it. -/
def present (fields : List (String × Json)) (name : String) : Except FormError (Option α) :=
  match Json.field? name fields with
  | none => .ok none
  | some j => some <$> ofJson j

/-- The value at a place of an array, which must have one there. -/
def element (items : List Json) (i : Nat) : Except FormError α :=
  match items[i]? with
  | none => .error .malformed
  | some j => ofJson j

/-- A part that must be there. -/
def required : Option α → Except FormError α
  | none => .error .malformed
  | some a => .ok a

/-- A variant by its name: the name alone, or an object with the name and what belongs to it. -/
def variant? : Json → Option (String × Option Json)
  | .string name => some (name, none)
  | .object [(name, value)] => some (name, some value)
  | _ => none

/-- What belongs to a variant without parts: nothing, or null. -/
def isUnit : Option Json → Bool
  | none | some .null => true
  | some _ => false

/-- The value whose variant has a name, out of a list of variants without parts. -/
def ofUnitVariants {β : Type} (variants : List (String × β)) (j : Json) : Except FormError β :=
  match variant? j with
  | none => .error .malformed
  | some (name, content) =>
    match variants.find? fun v ↦ v.1 = name with
    | some v => if isUnit content then .ok v.2 else .error .malformed
    | none => .error .malformed

/-- A count: an integer between zero and `maxCount`. -/
def ofCount : Json → Except FormError Nat
  | .integer (.ofNat n) => if n ≤ maxCount then .ok n else .error .malformed
  | _ => .error .malformed

/-- A head position: an integer between `minPosition` and `maxPosition`. -/
def ofPosition : Json → Except FormError Int
  | .integer n => if minPosition ≤ n ∧ n ≤ maxPosition then .ok n else .error .malformed
  | _ => .error .malformed

end JsonForm

open JsonForm

/-- Counts as they are. -/
instance : JsonForm Nat := ⟨Json.natural, ofCount⟩

/-- Head positions as they are. -/
instance : JsonForm Int := ⟨Json.integer, ofPosition⟩

/-- A symbol is a string of one character. -/
instance : JsonForm Symbol where
  toJson s := .string s.text
  ofJson
    | .string text =>
      match text.toList with
      | [c] => (Symbol.ofChar c).mapError .invalidSymbol
      | _ => .error .malformed
    | _ => .error .malformed

/-- A state is its number. -/
instance : JsonForm State where
  toJson q := .natural q.index
  ofJson j := State.mk <$> ofCount j

/-- An action is its name. -/
instance : JsonForm Action where
  toJson
    | .moveRight => .string "MoveRight"
    | .moveLeft => .string "MoveLeft"
    | .accept => .string "Accept"
    | .reject => .string "Reject"
  ofJson := ofUnitVariants [("MoveRight", .moveRight), ("MoveLeft", .moveLeft), ("Accept", .accept),
    ("Reject", .reject)]

/-- A transition is a record. -/
instance : JsonForm Transition where
  toJson t := .object
    [("next_state", toJson t.next), ("write", toJson t.write), ("action", toJson t.action)]
  ofJson
    | .object fields => do
      let action : Option Action ← present fields "action"
      let next : Option State ← present fields "next_state"
      let write : Option Symbol ← present fields "write"
      return ⟨← required next, ← required write, ← required action⟩
    | .array items => do
      let t : Transition := ⟨← element items 0, ← element items 1, ← element items 2⟩
      if items.length = 3 then return t else throw .malformed
    | _ => .error .malformed

/-- A tape is its text. -/
instance : JsonForm Tape where
  toJson t := .string t.text
  ofJson
    | .string text => (Tape.ofChars text.toList).mapError .invalidSymbol
    | _ => .error .malformed

/-- A halt is its name, with its parts if it has any. -/
instance : JsonForm Halt where
  toJson
    | .accepted => .string "Accepted"
    | .rejected => .string "Rejected"
    | .undefined state symbol =>
      .object [("Undefined", .object [("state", toJson state), ("symbol", toJson symbol)])]
    | .outOfBounds position =>
      .object [("OutOfBounds", .object [("position", toJson position)])]
  ofJson j :=
    match variant? j with
    | some ("Undefined", some (.object fields)) => do
      let state : Option State ← present fields "state"
      let symbol : Option Symbol ← present fields "symbol"
      return .undefined (← required state) (← required symbol)
    | some ("OutOfBounds", some (.object fields)) => do
      let position : Option Int ← present fields "position"
      return .outOfBounds (← required position)
    | _ => ofUnitVariants [("Accepted", .accepted), ("Rejected", .rejected)] j

/-- A mode is its name. -/
instance : JsonForm Mode where
  toJson m := .string m.text
  ofJson := ofUnitVariants [("Normal", .normal), ("Strict", .strict)]

/-- An input is a record. -/
instance : JsonForm Run where
  toJson r := .object [("tape", toJson r.tape), ("head", toJson r.head)]
  ofJson
    | .object fields => do
      let head : Option Int ← present fields "head"
      let tape : Option Tape ← present fields "tape"
      return ⟨← required tape, ← required head⟩
    | .array items => do
      let r : Run := ⟨← element items 0, ← element items 1⟩
      if items.length = 2 then return r else throw .malformed
    | _ => .error .malformed

/-- An outcome is a record. -/
instance : JsonForm Outcome where
  toJson o := .object
    [("halt", toJson o.halt), ("state", toJson o.state), ("tape", toJson o.tape),
      ("head", toJson o.head), ("steps", toJson o.steps)]
  ofJson
    | .object fields => do
      let halt : Option Halt ← present fields "halt"
      let head : Option Int ← present fields "head"
      let state : Option State ← present fields "state"
      let steps : Option Nat ← present fields "steps"
      let tape : Option Tape ← present fields "tape"
      return ⟨← required halt, ← required state, ← required tape, ← required head, ← required steps⟩
    | .array items => do
      let o : Outcome := ⟨← element items 0, ← element items 1, ← element items 2,
        ← element items 3, ← element items 4⟩
      if items.length = 5 then return o else throw .malformed
    | _ => .error .malformed

end TapeMachine
