import TapeMachine.Symbol
import TapeMachine.Text.Numeral

/-!
# Rules

A rule has a trigger, the state and the symbol on which it fires, and a transition, what the machine
then does: write a symbol, and move into a state or halt.
-/

namespace TapeMachine

/-- A machine state, known by its number. -/
structure State where
  index : Nat
  deriving DecidableEq, Repr

namespace State

/-- States are ordered by number. -/
instance : Ranked State := ⟨State.index, fun {a b} h ↦ by cases a; cases b; simpa using h⟩

/-- The state in words: `q` and its number. -/
def text (q : State) : String := "q" ++ Text.natural q.index

end State

/-- What a machine does after it has written its symbol. -/
inductive Action where
  | moveRight
  | moveLeft
  | accept
  | reject
  deriving DecidableEq, Repr

/-- The refusal of a letter that stands for no action. -/
structure InvalidAction where
  code : Char
  deriving DecidableEq, Repr

/-- The refusal in words. -/
def InvalidAction.message (e : InvalidAction) : String :=
  "Invalid action: " ++ Text.quoteChar e.code ++ " (expected R, L, Y or N)"

namespace Action

/-- The letter of an action. -/
def code : Action → Char
  | moveRight => 'R'
  | moveLeft => 'L'
  | accept => 'Y'
  | reject => 'N'

/-- The action of a letter. -/
def ofCode (c : Char) : Except InvalidAction Action :=
  if c = 'R' then .ok moveRight
  else if c = 'L' then .ok moveLeft
  else if c = 'Y' then .ok accept
  else if c = 'N' then .ok reject
  else .error ⟨c⟩

/-- The actions that stop the machine. -/
def isHalting : Action → Bool
  | accept | reject => true
  | moveRight | moveLeft => false

/-- The action in words: its letter. -/
def text (a : Action) : String := a.code.toString

/-- An action is read from its own letter. -/
theorem ofCode_code (a : Action) : ofCode a.code = .ok a := by
  cases a <;> rfl

/-- A letter is read as an action exactly if it is that action's letter. -/
theorem ofCode_eq_ok_iff {c : Char} {a : Action} : ofCode c = .ok a ↔ c = a.code := by
  constructor
  · intro h
    unfold ofCode at h
    split at h
    · cases h; assumption
    · split at h
      · cases h; assumption
      · split at h
        · cases h; assumption
        · split at h
          · cases h; assumption
          · cases h
  · rintro rfl
    exact ofCode_code a

end Action

/-- The state and the symbol under the head on which a rule fires. -/
structure Trigger where
  state : State
  symbol : Symbol
  deriving DecidableEq

namespace Trigger

/-- Every code point is below this number. -/
def codePoints : Nat := 0x110000

theorem toNat_lt_codePoints (c : Char) : c.toNat < codePoints := by
  have h := c.valid
  unfold UInt32.isValidChar Nat.isValidChar at h
  simp only [Char.toNat, codePoints]
  omega

/-- Triggers are ordered by state, then by symbol. -/
instance : Ranked Trigger where
  rank t := t.state.index * codePoints + t.symbol.char.toNat
  rank_inj {a b} h := by
    have ha := toNat_lt_codePoints a.symbol.char
    have hb := toNat_lt_codePoints b.symbol.char
    have hs : a.state.index = b.state.index ∧ a.symbol.char.toNat = b.symbol.char.toNat := by
      simp only [codePoints] at *
      omega
    obtain ⟨sa, ya⟩ := a
    obtain ⟨sb, yb⟩ := b
    exact (Trigger.mk.injEq ..).mpr ⟨rank_inj (α := State) hs.1, rank_inj (α := Symbol) hs.2⟩

/-- One trigger comes before another if its state does, or with equal states its symbol does. -/
theorem rank_lt_rank_iff {a b : Trigger} :
    rank a < rank b ↔
      rank a.state < rank b.state ∨ a.state = b.state ∧ rank a.symbol < rank b.symbol := by
  have ha := toNat_lt_codePoints a.symbol.char
  have hb := toNat_lt_codePoints b.symbol.char
  rw [← rank_eq_rank_iff (a := a.state)]
  simp only [rank, codePoints] at *
  omega

end Trigger

/-- What a rule does: the state it enters if it moves, the symbol it writes, and its action. -/
structure Transition where
  next : State
  write : Symbol
  action : Action
  deriving DecidableEq

/-- The transition in words, as in `(q1 , a , R)`. -/
def Transition.text (t : Transition) : String :=
  "(" ++ t.next.text ++ " , " ++ t.write.text ++ " , " ++ t.action.text ++ ")"

/-- A rule: on its trigger, the machine makes its transition. -/
structure Rule where
  trigger : Trigger
  transition : Transition
  deriving DecidableEq

end TapeMachine
