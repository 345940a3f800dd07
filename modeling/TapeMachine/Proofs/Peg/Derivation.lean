import TapeMachine.Proofs.Peg.Outcome

/-!
# Derivations

Grammars in their usual notation, and what it means for a text to be derived from one. Layout is
skipped between the parts of sequences and repetitions, but only where it is allowed: not inside
atomic rules. A derivation leaves tokens, one for each rule in it that is not inside an atomic rule.

A pattern has one derivation at most at a place, whether it succeeds or fails (`Derives.unique`).
-/

namespace TapeMachine

open Peg (Cursor)

variable {ρ : Type}

/-- Where a pattern stands. -/
inductive Context where
  /-- Layout is skipped between parts, and rules leave tokens. -/
  | loose
  /-- Nothing is skipped, and rules leave tokens. -/
  | tight
  /-- Nothing is skipped, and rules leave no tokens. -/
  | mute
  deriving DecidableEq

/-- The kinds of rules. -/
inductive RuleKind where
  /-- The rule stands where it is called. -/
  | plain
  /-- Nothing is skipped inside the rule. -/
  | compound
  /-- Nothing is skipped inside the rule, and the rules inside leave no tokens. -/
  | atomic

/-- Where the body of a rule stands. -/
def RuleKind.inside : RuleKind → Context → Context
  | plain, ctx => ctx
  | compound, _ => .tight
  | atomic, _ => .mute

/-- Where the token of a rule counts: that of a compound rule is left in any case. -/
def RuleKind.outside : RuleKind → Context → Context
  | plain, ctx | atomic, ctx => ctx
  | compound, _ => .tight

/-- Patterns with rule names from `ρ`. -/
inductive Pattern (ρ : Type) where
  /-- Exactly this text. -/
  | text (s : String)
  /-- One character between two. -/
  | range (low high : Char)
  /-- Any one character. -/
  | any
  /-- The start of the text. -/
  | starts
  /-- The end of the text. -/
  | ends
  /-- One pattern after another. -/
  | seq (first second : Pattern ρ)
  /-- The first of two patterns that matches. -/
  | choice (first second : Pattern ρ)
  /-- The pattern if it matches, and nothing otherwise. -/
  | optional (p : Pattern ρ)
  /-- The pattern as often as it matches. -/
  | many (p : Pattern ρ)
  /-- The rounds of a repetition that follow another round. -/
  | more (p : Pattern ρ)
  /-- Nothing, where the pattern does not match. -/
  | without (p : Pattern ρ)
  /-- The pattern under a name. -/
  | rule (name : ρ) (kind : RuleKind) (body : Pattern ρ)

/-- The pattern as often as it matches, which must be once at least. -/
def Pattern.some (p : Pattern ρ) : Pattern ρ := p.seq p.many

/-- What a rule leaves: its name, where and what it read, and the tokens inside. -/
inductive Token (ρ : Type) where
  | node (rule : ρ) (span : Span) (text : List Char) (inner : List (Token ρ))

/-- What is skipped between two parts. -/
def Context.between (layout : Pattern ρ) : Context → Pattern ρ
  | loose => layout
  | tight | mute => .text ""

/-- The tokens that a rule leaves. -/
def Context.leave : Context → Token ρ → List (Token ρ) → List (Token ρ)
  | loose, t, _ | tight, t, _ => [t]
  | mute, _, inner => inner

/-- A pattern at a place has a derivation with this result: the tokens and the place behind, or
nothing if the pattern fails. -/
inductive Derives (layout : Pattern ρ) :
    Context → Pattern ρ → Cursor → Option (List (Token ρ) × Cursor) → Prop
  | text {ctx : Context} {s : String} {c : Cursor} {rest : List Char} :
      c.rest = s.toList ++ rest →
      Derives layout ctx (.text s) c (some ([], ⟨rest, c.pos + s.length⟩))
  | text_none {ctx : Context} {s : String} {c : Cursor} :
      ¬s.toList <+: c.rest → Derives layout ctx (.text s) c none
  | range {ctx : Context} {low high a : Char} {c : Cursor} {rest : List Char} :
      c.rest = a :: rest → low ≤ a ∧ a ≤ high →
      Derives layout ctx (.range low high) c (some ([], ⟨rest, c.pos + 1⟩))
  | range_none {ctx : Context} {low high : Char} {c : Cursor} :
      (∀ a rest, c.rest = a :: rest → ¬(low ≤ a ∧ a ≤ high)) →
      Derives layout ctx (.range low high) c none
  | any {ctx : Context} {a : Char} {c : Cursor} {rest : List Char} :
      c.rest = a :: rest → Derives layout ctx .any c (some ([], ⟨rest, c.pos + 1⟩))
  | any_none {ctx : Context} {c : Cursor} : c.rest = [] → Derives layout ctx .any c none
  | starts {ctx : Context} {c : Cursor} :
      c.pos = 0 → Derives layout ctx .starts c (some ([], c))
  | starts_none {ctx : Context} {c : Cursor} : c.pos ≠ 0 → Derives layout ctx .starts c none
  | ends {ctx : Context} {c : Cursor} : c.rest = [] → Derives layout ctx .ends c (some ([], c))
  | ends_none {ctx : Context} {c : Cursor} : c.rest ≠ [] → Derives layout ctx .ends c none
  | seq {ctx : Context} {p q : Pattern ρ} {c c₁ c₂ c₃ : Cursor} {ts us gs : List (Token ρ)} :
      Derives layout ctx p c (some (ts, c₁)) →
      Derives layout .mute (ctx.between layout) c₁ (some (gs, c₂)) →
      Derives layout ctx q c₂ (some (us, c₃)) →
      Derives layout ctx (p.seq q) c (some (ts ++ us, c₃))
  | seq_none {ctx : Context} {p q : Pattern ρ} {c : Cursor} :
      Derives layout ctx p c none → Derives layout ctx (p.seq q) c none
  | seq_some_none {ctx : Context} {p q : Pattern ρ} {c c₁ c₂ : Cursor}
      {ts gs : List (Token ρ)} :
      Derives layout ctx p c (some (ts, c₁)) →
      Derives layout .mute (ctx.between layout) c₁ (some (gs, c₂)) →
      Derives layout ctx q c₂ none → Derives layout ctx (p.seq q) c none
  | choice {ctx : Context} {p q : Pattern ρ} {c : Cursor} {r : List (Token ρ) × Cursor} :
      Derives layout ctx p c (some r) → Derives layout ctx (p.choice q) c (some r)
  | choice_none {ctx : Context} {p q : Pattern ρ} {c : Cursor}
      {r : Option (List (Token ρ) × Cursor)} :
      Derives layout ctx p c none → Derives layout ctx q c r →
      Derives layout ctx (p.choice q) c r
  | optional {ctx : Context} {p : Pattern ρ} {c : Cursor} {r : List (Token ρ) × Cursor} :
      Derives layout ctx p c (some r) → Derives layout ctx p.optional c (some r)
  | optional_none {ctx : Context} {p : Pattern ρ} {c : Cursor} :
      Derives layout ctx p c none → Derives layout ctx p.optional c (some ([], c))
  | many {ctx : Context} {p : Pattern ρ} {c c₁ c₂ : Cursor} {ts us : List (Token ρ)} :
      Derives layout ctx p c (some (ts, c₁)) → Derives layout ctx p.more c₁ (some (us, c₂)) →
      Derives layout ctx p.many c (some (ts ++ us, c₂))
  | many_none {ctx : Context} {p : Pattern ρ} {c : Cursor} :
      Derives layout ctx p c none → Derives layout ctx p.many c (some ([], c))
  | more {ctx : Context} {p : Pattern ρ} {c c₁ c₂ c₃ : Cursor} {ts us gs : List (Token ρ)} :
      Derives layout .mute (ctx.between layout) c (some (gs, c₁)) →
      Derives layout ctx p c₁ (some (ts, c₂)) → Derives layout ctx p.more c₂ (some (us, c₃)) →
      Derives layout ctx p.more c (some (ts ++ us, c₃))
  | more_none {ctx : Context} {p : Pattern ρ} {c c₁ : Cursor} {gs : List (Token ρ)} :
      Derives layout .mute (ctx.between layout) c (some (gs, c₁)) →
      Derives layout ctx p c₁ none → Derives layout ctx p.more c (some ([], c))
  | without {ctx : Context} {p : Pattern ρ} {c : Cursor} :
      Derives layout ctx p c none → Derives layout ctx p.without c (some ([], c))
  | without_none {ctx : Context} {p : Pattern ρ} {c : Cursor} {r : List (Token ρ) × Cursor} :
      Derives layout ctx p c (some r) → Derives layout ctx p.without c none
  | rule {ctx : Context} {name : ρ} {kind : RuleKind} {p : Pattern ρ} {c next : Cursor}
      {w : List Char} {ts : List (Token ρ)} :
      Derives layout (kind.inside ctx) p c (some (ts, next)) → c.rest = w ++ next.rest →
      Derives layout ctx (.rule name kind p) c
        (some ((kind.outside ctx).leave (.node name ⟨c.pos, next.pos⟩ w ts) ts, next))
  | rule_none {ctx : Context} {name : ρ} {kind : RuleKind} {p : Pattern ρ} {c : Cursor} :
      Derives layout (kind.inside ctx) p c none →
      Derives layout ctx (.rule name kind p) c none

namespace Derives

variable {layout : Pattern ρ}

/-- A pattern has one derivation at most at a place. -/
theorem unique {ctx : Context} {p : Pattern ρ} {c : Cursor}
    {r r' : Option (List (Token ρ) × Cursor)} (h : Derives layout ctx p c r)
    (h' : Derives layout ctx p c r') : r = r' := by
  induction h generalizing r' with
  | text hr =>
    cases h' with
    | text hr' => rw [List.append_cancel_left (hr.symm.trans hr')]
    | text_none hn => exact absurd ⟨_, hr.symm⟩ hn
  | text_none hn =>
    cases h' with
    | text hr => exact absurd ⟨_, hr.symm⟩ hn
    | text_none => rfl
  | range hr ha =>
    cases h' with
    | range hr' _ =>
      obtain ⟨-, rfl⟩ := List.cons.inj (hr.symm.trans hr')
      rfl
    | range_none hn => exact absurd ha (hn _ _ hr)
  | range_none hn =>
    cases h' with
    | range hr ha => exact absurd ha (hn _ _ hr)
    | range_none => rfl
  | any hr =>
    cases h' with
    | any hr' =>
      obtain ⟨-, rfl⟩ := List.cons.inj (hr.symm.trans hr')
      rfl
    | any_none hn => exact absurd (hr.symm.trans hn) (List.cons_ne_nil _ _)
  | any_none hn =>
    cases h' with
    | any hr => exact absurd (hr.symm.trans hn) (List.cons_ne_nil _ _)
    | any_none => rfl
  | starts hp =>
    cases h' with
    | starts => rfl
    | starts_none hn => exact absurd hp hn
  | starts_none hn =>
    cases h' with
    | starts hp => exact absurd hp hn
    | starts_none => rfl
  | ends hp =>
    cases h' with
    | ends => rfl
    | ends_none hn => exact absurd hp hn
  | ends_none hn =>
    cases h' with
    | ends hp => exact absurd hp hn
    | ends_none => rfl
  | seq _ _ _ ih₁ ih₂ ih₃ =>
    cases h' with
    | seq h₁ h₂ h₃ =>
      cases ih₁ h₁
      cases ih₂ h₂
      cases ih₃ h₃
      rfl
    | seq_none h₁ => cases ih₁ h₁
    | seq_some_none h₁ h₂ h₃ =>
      cases ih₁ h₁
      cases ih₂ h₂
      cases ih₃ h₃
  | seq_none _ ih₁ =>
    cases h' with
    | seq h₁ => cases ih₁ h₁
    | seq_none => rfl
    | seq_some_none h₁ => cases ih₁ h₁
  | seq_some_none _ _ _ ih₁ ih₂ ih₃ =>
    cases h' with
    | seq h₁ h₂ h₃ =>
      cases ih₁ h₁
      cases ih₂ h₂
      cases ih₃ h₃
    | seq_none => rfl
    | seq_some_none => rfl
  | choice _ ih =>
    cases h' with
    | choice h₁ => exact ih h₁
    | choice_none h₁ => cases ih h₁
  | choice_none _ _ ih₁ ih₂ =>
    cases h' with
    | choice h₁ => cases ih₁ h₁
    | choice_none _ h₂ => exact ih₂ h₂
  | optional _ ih =>
    cases h' with
    | optional h₁ => exact ih h₁
    | optional_none h₁ => cases ih h₁
  | optional_none _ ih =>
    cases h' with
    | optional h₁ => cases ih h₁
    | optional_none => rfl
  | many _ _ ih₁ ih₂ =>
    cases h' with
    | many h₁ h₂ =>
      cases ih₁ h₁
      cases ih₂ h₂
      rfl
    | many_none h₁ => cases ih₁ h₁
  | many_none _ ih =>
    cases h' with
    | many h₁ => cases ih h₁
    | many_none => rfl
  | more _ _ _ ih₁ ih₂ ih₃ =>
    cases h' with
    | more h₁ h₂ h₃ =>
      cases ih₁ h₁
      cases ih₂ h₂
      cases ih₃ h₃
      rfl
    | more_none h₁ h₂ =>
      cases ih₁ h₁
      cases ih₂ h₂
  | more_none _ _ ih₁ ih₂ =>
    cases h' with
    | more h₁ h₂ =>
      cases ih₁ h₁
      cases ih₂ h₂
    | more_none => rfl
  | without _ ih =>
    cases h' with
    | without => rfl
    | without_none h₁ => cases ih h₁
  | without_none _ ih =>
    cases h' with
    | without h₁ => cases ih h₁
    | without_none => rfl
  | rule _ hw ih =>
    cases h' with
    | rule h₁ hw' =>
      cases ih h₁
      rw [List.append_cancel_right (hw.symm.trans hw')]
    | rule_none h₁ => cases ih h₁
  | rule_none _ ih =>
    cases h' with
    | rule h₁ => cases ih h₁
    | rule_none => rfl

end Derives

end TapeMachine
