import TapeMachine.Proofs.Definition.FileInStep
import TapeMachine.Proofs.Peg.Likeness

/-!
# Parts that are read elsewhere

Values of the grammar that are alike have the same parts, wherever these stand: words are the same
(`alike_symbol` and its like), and so are rules, inputs and sections (`alike_transition`,
`alike_anySection`).
-/

namespace TapeMachine.Definition

variable {α β : Type} {e : Grammar.Expr α} {f : Grammar.Expr β}

/-! ### Parts with gaps between them -/

theorem alike_pair {x y : α × β} (h : (Grammar.pair e f).Alike x y) :
    e.Alike x.1 y.1 ∧ f.Alike x.2 y.2 :=
  ⟨h.1, Peg.alike_right h.2⟩

theorem alike_after {text : String} {x y : α} (h : (Grammar.after text e).Alike x y) :
    e.Alike x y :=
  Peg.alike_right (Peg.alike_right h)

theorem alike_before {text : String} {x y : α} (h : (Grammar.before e text).Alike x y) :
    e.Alike x y :=
  Peg.alike_left h

theorem alike_list {xs ys : List α} (h : (Grammar.list e).Alike xs ys) :
    List.Forall₂ e.Alike xs ys := by
  obtain ⟨o, o', h, rfl, rfl⟩ := h
  cases h with
  | none => exact .nil
  | some h => exact .cons h.1 (h.2.imp fun _ _ ↦ Peg.alike_right)

/-! ### Words -/

theorem eq_of_alike_some (he : ∀ a b, e.Alike a b → a = b) {as bs : List α}
    (h : (Peg.some e).Alike as bs) : as = bs := by
  obtain ⟨x, y, ⟨hfirst, hrest⟩, rfl, rfl⟩ := h
  have hsame : List.Forall₂ (· = ·) x.2 y.2 := List.Forall₂.imp he hrest
  rw [List.forall₂_eq_eq_eq] at hsame
  exact congrArg₂ List.cons (he _ _ hfirst) hsame

theorem alike_count {x y : Located Digits} (h : Grammar.count.Alike x y) : SameValue x y :=
  eq_of_alike_some (fun _ _ ↦ id) h

theorem alike_state {x y : Located Digits} (h : Grammar.state.Alike x y) : SameValue x y := by
  obtain ⟨a, b, h, rfl, rfl⟩ := h
  exact alike_count (Peg.alike_right h)

theorem alike_action {x y : Located Char} (h : Grammar.action.Alike x y) : SameValue x y := h

theorem alike_position {x y : Located PositionText} (h : Grammar.position.Alike x y) :
    SameValue x y := by
  obtain ⟨⟨sign, ds⟩, ⟨sign', ds'⟩, ⟨hsign, hdigits⟩, hx, hy⟩ := h
  have hsigned : sign.isSome = sign'.isSome := by cases hsign <;> rfl
  have hsame := congrArg₂ PositionText.mk hsigned (eq_of_alike_some (fun _ _ ↦ id) hdigits)
  exact hx.trans (hsame.trans hy.symm)

theorem alike_symbol {x y : Located Char} (h : Grammar.symbol.Alike x y) : SameValue x y := by
  rcases h with ⟨a, b, h, hx, hy⟩ | ⟨a, b, h, hx, hy⟩
  · have hquoted : a.value.value = b.value.value := Peg.alike_left (Peg.alike_right h)
    exact hx.trans (hquoted.trans hy.symm)
  · exact hx.trans (Eq.trans h hy.symm)

theorem alike_tape {x y : Located (List Char)} (h : Grammar.tape.Alike x y) : SameValue x y := by
  obtain ⟨a, b, h, rfl, rfl⟩ := h
  have hcells : List.Forall₂ (· = ·) a.value.value b.value.value :=
    Peg.alike_left (Peg.alike_right h)
  rwa [List.forall₂_eq_eq_eq] at hcells

theorem alike_text {x y : Located (List Char)} (h : Grammar.text.Alike x y) : SameValue x y :=
  eq_of_alike_some (fun _ _ ↦ Peg.alike_right) h

theorem alike_modeValue {x y : Located Mode} (h : Grammar.modeValue.Alike x y) : SameValue x y := by
  rcases h with ⟨_, _, -, hx, hy⟩ | ⟨_, _, -, hx, hy⟩
  all_goals exact hx.trans hy.symm

/-! ### Rules, inputs and sections -/

theorem alike_transition {x y : Located RuleText} (h : Grammar.transition.Alike x y) :
    SameRule x y := by
  obtain ⟨⟨q, s, q', s', a⟩, ⟨r, t, r', t', b⟩, h, hx, hy⟩ := h
  obtain ⟨hstate, h⟩ := alike_pair (alike_after h)
  obtain ⟨hsymbol, h⟩ := alike_pair (alike_after h)
  obtain ⟨hnext, h⟩ := alike_pair (alike_after (alike_after (alike_after h)))
  obtain ⟨hwrite, h⟩ := alike_pair (alike_after h)
  constructor <;> rw [hx, hy]
  · exact alike_state hstate
  · exact alike_symbol hsymbol
  · exact alike_state hnext
  · exact alike_symbol hwrite
  · exact alike_action (alike_before (alike_after h))

theorem alike_run {x y : Located RunText} (h : Grammar.run.Alike x y) :
    SameRun x.value y.value := by
  obtain ⟨a, b, h, hx, hy⟩ := h
  obtain ⟨htape, h⟩ := alike_pair h
  rw [hx, hy]
  exact ⟨alike_tape htape, alike_position (alike_after h)⟩

/-- A rule on a line of its own. -/
def ruleLine : Grammar.Expr (Located RuleText) :=
  (Grammar.pair Grammar.breaks Grammar.transition).map Prod.snd

theorem alike_ruleLine {x y : Located RuleText} (h : ruleLine.Alike x y) : SameRule x y := by
  obtain ⟨a, b, h, rfl, rfl⟩ := h
  exact alike_transition (alike_pair h).2

theorem alike_anySection {x y : Located Section} (h : Grammar.anySection.Alike x y) :
    SameSection x.value y.value := by
  rcases h with h | h | h | h | h | h | h
  all_goals
    obtain ⟨a, b, h, hx, hy⟩ := h
    have h := alike_after h
    rw [hx, hy]
  · exact .name (congrArg Text.trim (alike_text h))
  · have hmode : a.value = b.value := alike_modeValue h
    simp only [hmode]
    exact .mode b.value
  · exact .states (alike_count h)
  · exact .start (alike_state h)
  · obtain ⟨hfirst, hrest⟩ := alike_pair h
    exact .alphabet (.cons (alike_symbol hfirst)
      ((alike_list hrest).imp fun _ _ h ↦ alike_symbol (alike_after h)))
  · exact .transitions ((alike_list h).imp fun _ _ ↦ alike_ruleLine)
  · refine .runs ((alike_list h).imp ?_)
    rintro _ _ ⟨x, y, h, rfl, rfl⟩
    exact alike_run (alike_pair h).2

/-- The sections of two files have the same parts, one by one. -/
abbrev SameSections (xs ys : List (Located Section)) : Prop :=
  List.Forall₂ (fun x y ↦ SameSection x.value y.value) xs ys

theorem alike_sectionBlock {x y : Located Section} (h : sectionBlock.Alike x y) :
    SameSection x.value y.value := by
  obtain ⟨a, b, h, rfl, rfl⟩ := h
  exact alike_anySection (alike_pair h).1

end TapeMachine.Definition
