import TapeMachine.Proofs.Peg.Lockstep

/-!
# Rounds of a repetition

The matches of an expression one after another, without the refusal that ends a repetition. A
repetition reads rounds up to where its expression is refused (`outcome_many_eq_some_iff`). Rounds
can be cut in two at any of them (`rounds_append_iff`), and they go alike on two texts if each of
them does (`Rounds.exists_of_tracks`).
-/

namespace TapeMachine.Peg

variable {ρ α : Type} {e : Peg ρ α} {c mid last : Cursor} {a : α} {as bs : List α}

/-- From one place to the other the expression matches again and again, with these values. -/
inductive Rounds (e : Peg ρ α) : Cursor → List α → Cursor → Prop
  | stop (c : Cursor) : Rounds e c [] c
  | again {c next last : Cursor} {a : α} {as : List α} :
      e.outcome c = Option.some (a, next) → Rounds e next as last → Rounds e c (a :: as) last

theorem rounds_cons_iff : e.Rounds c (a :: as) last ↔
    ∃ next, e.outcome c = Option.some (a, next) ∧ e.Rounds next as last := by
  constructor
  · rintro (_ | ⟨hfirst, hrest⟩)
    exact ⟨_, hfirst, hrest⟩
  · rintro ⟨next, hfirst, hrest⟩
    exact .again hfirst hrest

/-- Rounds that read some values and then others come to a place between. -/
theorem rounds_append_iff :
    e.Rounds c (as ++ bs) last ↔ ∃ mid, e.Rounds c as mid ∧ e.Rounds mid bs last := by
  induction as generalizing c with
  | nil =>
    constructor
    · exact fun h ↦ ⟨c, .stop c, h⟩
    · rintro ⟨mid, _ | _, h⟩
      exact h
  | cons a as ih =>
    simp only [List.cons_append, rounds_cons_iff, ih]
    constructor
    · rintro ⟨next, hfirst, mid, has, hbs⟩
      exact ⟨mid, ⟨next, hfirst, has⟩, hbs⟩
    · rintro ⟨mid, ⟨next, hfirst, has⟩, hbs⟩
      exact ⟨next, hfirst, mid, has, hbs⟩

/-- A repetition reads rounds up to where its expression is refused. -/
theorem outcome_many_eq_some_iff (hr : e.reads = true) :
    e.many.outcome c = Option.some (as, last) ↔ e.Rounds c as last ∧ e.outcome last = none := by
  constructor
  · intro hm
    induction c using many_induction hr generalizing as with
    | stop c hnone =>
      rw [outcome_many_of_none hnone, Option.some.injEq, Prod.mk.injEq] at hm
      obtain ⟨rfl, rfl⟩ := hm
      exact ⟨.stop c, hnone⟩
    | again c a next hsome ih =>
      obtain ⟨as', last', hm'⟩ := exists_outcome_many e next
      rw [outcome_many_of_some hr hsome hm', Option.some.injEq, Prod.mk.injEq] at hm
      obtain ⟨rfl, rfl⟩ := hm
      obtain ⟨hrounds, hnone⟩ := ih hm'
      exact ⟨.again hsome hrounds, hnone⟩
  · rintro ⟨hrounds, hnone⟩
    induction hrounds with
    | stop c => exact outcome_many_of_none hnone
    | again hfirst _ ih => exact outcome_many_of_some hr hfirst (ih hnone)

/-- Rounds lead on by a word. -/
theorem Rounds.exists_passes (h : e.Rounds c as last) : ∃ w, c.Passes w last := by
  induction h with
  | stop c => exact ⟨[], c.passes_nil⟩
  | again hfirst _ ih =>
    obtain ⟨v, hv, -⟩ := outcome_passes hfirst
    obtain ⟨w, hw⟩ := ih
    exact ⟨v ++ w, hv.append hw⟩

/-- What rounds leave is the end of what there was. -/
theorem Rounds.suffix (h : e.Rounds c as last) : last.rest <:+ c.rest := by
  obtain ⟨w, hw⟩ := h.exists_passes
  exact ⟨w, hw.rest_eq.symm⟩

/-- What every round keeps is there where they end. -/
theorem Rounds.preserves {P : Cursor → Prop} (h : e.Rounds c as last)
    (hstep : ∀ c a next, e.outcome c = Option.some (a, next) → P c → P next) (hc : P c) :
    P last := by
  induction h with
  | stop c => exact hc
  | again hfirst _ ih => exact ih (hstep _ _ _ hfirst hc)

/-- Rounds go alike on two texts if no round is stuck where they end. -/
theorem Rounds.exists_of_tracks {lost stuck : List Char → Prop} {In : List Char → List Char → Prop}
    {V : α → α → Prop} (h : e.Rounds c as last) (htracks : e.Tracks lost stuck In In V)
    (hstuck : ∀ c a next, e.outcome c = Option.some (a, next) → stuck c.rest → stuck next.rest)
    (hlast : ¬stuck last.rest) {c' : Cursor} (hc : In c.rest c'.rest) :
    ∃ bs last', e.Rounds c' bs last' ∧ List.Forall₂ V as bs ∧ In last.rest last'.rest := by
  induction h generalizing c' with
  | stop c => exact ⟨[], c', .stop c', .nil, hc⟩
  | @again c next last a as hfirst hrest ih =>
    have hround := htracks c c' hc
    rw [hfirst] at hround
    generalize ho : e.outcome c' = o at hround
    cases hround with
    | matched hab hnext =>
      obtain ⟨bs, last', hbs, hvs, hend⟩ := ih hlast hnext
      exact ⟨_, last', .again ho hbs, .cons hab hvs, hend⟩
    | stuck hs => exact absurd (hrest.preserves (P := fun d ↦ stuck d.rest) hstuck hs) hlast

end TapeMachine.Peg
