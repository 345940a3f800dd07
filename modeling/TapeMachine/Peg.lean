/-!
# Parsing expressions

A parsing expression describes the beginnings of texts and the value that each one denotes. Choice
is ordered and repetition is greedy, neither ever gives anything back, and a look-ahead reads
nothing. Named rules give their value with the stretch of text they read.

A text that is refused is explained by the names of the rules that were tried in vain at the
furthest place reached. A rule gives way to the rules inside it if exactly one of those was tried in
vain at the place where it began, and stands for them otherwise.
-/

namespace TapeMachine

/-- A stretch of a text, from the character numbered `start` up to before the one numbered `stop`.
-/
structure Span where
  start : Nat
  stop : Nat
  deriving DecidableEq, Repr

/-- A value with the stretch of text that it was read from. -/
structure Located (α : Type) where
  value : α
  span : Span
  deriving DecidableEq, Repr

/-- Parsing expressions with rule names from `ρ`, by the type of the values that they denote. -/
inductive Peg (ρ : Type) : Type → Type 1 where
  /-- Exactly this text. -/
  | literal (text : String) : Peg ρ Unit
  /-- One character of a class. -/
  | satisfying (p : Char → Bool) : Peg ρ Char
  /-- The end of the text. -/
  | ends : Peg ρ Unit
  /-- One expression after another. -/
  | seq {α β : Type} (first : Peg ρ α) (second : Peg ρ β) : Peg ρ (α × β)
  /-- The first expression that matches of two. -/
  | choice {α : Type} (first second : Peg ρ α) : Peg ρ α
  /-- The expression if it matches, and nothing otherwise. -/
  | optional {α : Type} (e : Peg ρ α) : Peg ρ (Option α)
  /-- The expression as often as it matches. -/
  | many {α : Type} (e : Peg ρ α) : Peg ρ (List α)
  /-- Nothing, where the expression does not match. -/
  | without {α : Type} (e : Peg ρ α) : Peg ρ Unit
  /-- The expression with another value. -/
  | map {α β : Type} (f : α → β) (e : Peg ρ α) : Peg ρ β
  /-- The expression under a name. -/
  | rule {α : Type} (name : ρ) (e : Peg ρ α) : Peg ρ (Located α)

namespace Peg

variable {ρ α β : Type}

/-- The second of two expressions counts. -/
def right (first : Peg ρ α) (second : Peg ρ β) : Peg ρ β := (first.seq second).map Prod.snd

/-- The first of two expressions counts. -/
def left (first : Peg ρ α) (second : Peg ρ β) : Peg ρ α := (first.seq second).map Prod.fst

/-- The expression as often as it matches, which must be once at least. -/
def some (e : Peg ρ α) : Peg ρ (List α) := (e.seq e.many).map fun r ↦ r.1 :: r.2

/-- The place that a reader has come to: what is left, and how many characters lie before. -/
structure Cursor where
  rest : List Char
  pos : Nat

/-- The cursor at the start of a text. -/
def Cursor.ofText (text : List Char) : Cursor := ⟨text, 0⟩

/-- The furthest place at which rules were tried in vain, and their names in the order of the
trials. -/
structure Misses (ρ : Type) where
  pos : Nat
  rules : List ρ

namespace Misses

/-- No rule was tried in vain. -/
def none : Misses ρ := ⟨0, []⟩

/-- The number of rules tried in vain at a place. -/
def countAt (m : Misses ρ) (pos : Nat) : Nat := if m.pos = pos then m.rules.length else 0

/-- The misses after a rule that began at `pos` has been refused, when there were `before` misses at
that place as it began. -/
def add (m : Misses ρ) (name : ρ) (pos before : Nat) : Misses ρ :=
  if m.countAt pos - before = 1 then m
  else if pos = m.pos then ⟨pos, m.rules.take before ++ [name]⟩
  else if m.pos < pos then ⟨pos, [name]⟩
  else m

end Misses

/-- What becomes of an expression at a place: a value and the place behind it, or a refusal. -/
inductive Reply (ρ α : Type) where
  | matched (value : α) (next : Cursor) (misses : Misses ρ)
  | refused (misses : Misses ρ)

/-- The rest of a text behind a beginning, if it has that beginning. -/
def dropText? : List Char → List Char → Option (List Char)
  | [], cs => Option.some cs
  | _ :: _, [] => Option.none
  | t :: ts, c :: cs => if t = c then dropText? ts cs else Option.none

/-- Reads as often as `one` matches, `rounds` times at most. The values that were read before come
in reversed order. -/
def scanMany (one : Cursor → Misses ρ → Reply ρ α) :
    Nat → List α → Cursor → Misses ρ → Reply ρ (List α)
  | 0, held, c, m => .matched held.reverse c m
  | rounds + 1, held, c, m =>
    match one c m with
    | .matched a next m => scanMany one rounds (a :: held) next m
    | .refused m => .matched held.reverse c m

/-- Reads an expression at a place. The number bounds the rounds of a repetition; as every round of
a repetition reads a character, one more than the length of the text is no bound. -/
def scan (rounds : Nat) : {α : Type} → Peg ρ α → Cursor → Misses ρ → Reply ρ α
  | _, .literal text, c, m =>
    match dropText? text.toList c.rest with
    | Option.some rest => .matched () ⟨rest, c.pos + text.length⟩ m
    | Option.none => .refused m
  | _, .satisfying p, c, m =>
    match c.rest with
    | [] => .refused m
    | a :: rest => if p a then .matched a ⟨rest, c.pos + 1⟩ m else .refused m
  | _, .ends, c, m =>
    match c.rest with
    | [] => .matched () c m
    | _ :: _ => .refused m
  | _, .seq first second, c, m =>
    match scan rounds first c m with
    | .refused m => .refused m
    | .matched a next m =>
      match scan rounds second next m with
      | .refused m => .refused m
      | .matched b last m => .matched (a, b) last m
  | _, .choice first second, c, m =>
    match scan rounds first c m with
    | .matched a next m => .matched a next m
    | .refused m => scan rounds second c m
  | _, .optional e, c, m =>
    match scan rounds e c m with
    | .matched a next m => .matched (Option.some a) next m
    | .refused m => .matched Option.none c m
  | _, .many e, c, m => scanMany (scan rounds e) rounds [] c m
  | _, .without e, c, m =>
    match scan rounds e c m with
    | .matched _ _ _ => .refused m
    | .refused _ => .matched () c m
  | _, .map f e, c, m =>
    match scan rounds e c m with
    | .matched a next m => .matched (f a) next m
    | .refused m => .refused m
  | _, .rule name e, c, m =>
    match scan rounds e c m with
    | .matched a next m => .matched ⟨a, c.pos, next.pos⟩ next m
    | .refused m' => .refused (m'.add name c.pos (m.countAt c.pos))

/-- The value of an expression that matches at the start of a text, or the misses. -/
def read (e : Peg ρ α) (text : List Char) : Except (Misses ρ) α :=
  match e.scan (text.length + 1) (Cursor.ofText text) Misses.none with
  | .matched a _ _ => .ok a
  | .refused m => .error m

end Peg

end TapeMachine
