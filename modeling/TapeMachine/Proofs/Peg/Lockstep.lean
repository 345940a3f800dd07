import TapeMachine.Proofs.Peg.Outcome
import Mathlib.Data.List.Forall2

/-!
# Two texts in step

What an expression makes of two texts that are alike. `Tracks` says that it does the same at related
places and gives related values. The first text leads: where it is `lost`, a refusal says nothing
about the second text, and where it is `stuck`, a match does not either. There is one lemma for each
way to build expressions.
-/

namespace TapeMachine.Peg

variable {ρ α β : Type}

/-- At no place. -/
def never (_ : List Char) : Prop := False

/-- The outcome at a place of the first text, before what is `left` there, and the outcome at a
place of the second text agree. -/
inductive InStep (lost stuck : List Char → Prop) (Out : List Char → List Char → Prop)
    (V : α → α → Prop) (left : List Char) : Option (α × Cursor) → Option (α × Cursor) → Prop
  | refused : InStep lost stuck Out V left none none
  | lost {o : Option (α × Cursor)} (h : lost left) : InStep lost stuck Out V left none o
  | matched {a a' : α} {next next' : Cursor} (hv : V a a') (ho : Out next.rest next'.rest) :
      InStep lost stuck Out V left (Option.some (a, next)) (Option.some (a', next'))
  | stuck {a : α} {next : Cursor} {o : Option (α × Cursor)} (h : stuck next.rest) :
      InStep lost stuck Out V left (Option.some (a, next)) o

/-- The outcomes of the expression at places that are related by `In` agree, and what is left behind
a match is related by `Out`. -/
def Tracks (lost stuck : List Char → Prop) (In Out : List Char → List Char → Prop) (e : Peg ρ α)
    (V : α → α → Prop) : Prop :=
  ∀ c c' : Cursor, In c.rest c'.rest →
    InStep lost stuck Out V c.rest (e.outcome c) (e.outcome c')

namespace InStep

variable {lost stuck : List Char → Prop} {Out : List Char → List Char → Prop} {V : α → α → Prop}
  {left : List Char} {o o' : Option (α × Cursor)}

/-- More places may be lost or stuck, and less may be said about what agrees. -/
theorem mono {lost' stuck' : List Char → Prop} {Out' : List Char → List Char → Prop}
    {V' : α → α → Prop} (h : InStep lost stuck Out V left o o') (hl : ∀ s, lost s → lost' s)
    (hs : ∀ s, stuck s → stuck' s) (ho : ∀ s t, Out s t → Out' s t)
    (hv : ∀ a b, V a b → V' a b) : InStep lost' stuck' Out' V' left o o' := by
  cases h with
  | refused => exact .refused
  | lost h => exact .lost (hl _ h)
  | matched hab hout => exact .matched (hv _ _ hab) (ho _ _ hout)
  | stuck h => exact .stuck (hs _ h)

/-- Other values that belong to the same texts. -/
theorem map {W : β → β → Prop} {g : α × Cursor → β} (h : InStep lost stuck Out V left o o')
    (hw : ∀ a b next next', V a b → W (g (a, next)) (g (b, next'))) :
    InStep lost stuck Out W left (o.map fun x ↦ (g x, x.2)) (o'.map fun x ↦ (g x, x.2)) := by
  cases h with
  | refused => exact .refused
  | lost h => exact .lost h
  | matched hab hout => exact .matched (hw _ _ _ _ hab) hout
  | stuck h => exact .stuck h

/-- Where nothing is lost or stuck, a match is a match on both sides. -/
theorem exists_of_some {a : α} {next : Cursor}
    (h : InStep lost never Out V left (Option.some (a, next)) o') :
    ∃ b next', o' = Option.some (b, next') ∧ V a b ∧ Out next.rest next'.rest := by
  cases h with
  | matched hab hout => exact ⟨_, _, rfl, hab, hout⟩
  | stuck h => exact h.elim

/-- Where nothing is lost, a refusal is a refusal on both sides. -/
theorem eq_none_of_none (h : InStep never stuck Out V left (none : Option (α × Cursor)) o') :
    o' = none := by
  cases h with
  | refused => rfl
  | lost h => exact h.elim

end InStep

namespace Tracks

variable {lost stuck lost' stuck' : List Char → Prop} {In Mid Out : List Char → List Char → Prop}
  {e e' : Peg ρ α} {f : Peg ρ β} {V V' : α → α → Prop} {W : β → β → Prop}

/-- Less may be asked for, and less said. -/
theorem mono {In' Out' : List Char → List Char → Prop} (h : e.Tracks lost stuck In Out V)
    (hi : ∀ s t, In' s t → In s t) (ho : ∀ s t, Out s t → Out' s t) (hv : ∀ a b, V a b → V' a b) :
    e.Tracks lost stuck In' Out' V' :=
  fun c c' hc ↦ (h c c' (hi _ _ hc)).mono (fun _ ↦ id) (fun _ ↦ id) ho hv

/-- Where nothing is lost or stuck, nothing is at any places. -/
theorem of_never (h : e.Tracks never never In Out V) : e.Tracks lost stuck In Out V :=
  fun c c' hc ↦ (h c c' hc).mono (fun _ ↦ False.elim) (fun _ ↦ False.elim) (fun _ _ ↦ id)
    fun _ _ ↦ id

/-- The end of the text is the same place where neither text goes on alone. -/
theorem ends (h : ∀ s t, In s t → (s = [] ↔ t = [])) :
    (Peg.ends : Peg ρ Unit).Tracks lost stuck In In fun _ _ ↦ True := by
  intro c c' hc
  rw [outcome, outcome]
  by_cases hs : c.rest = []
  · rw [if_pos hs, if_pos ((h _ _ hc).mp hs)]
    exact .matched trivial hc
  · rw [if_neg hs, if_neg fun ht ↦ hs ((h _ _ hc).mpr ht)]
    exact .refused

/-- One expression after another, if the first is not lost because the second is, and if the second
does not unstick the first. -/
theorem seq_of {stuckThen : List Char → Prop} (h : e.Tracks lost stuck In Mid V)
    (h' : f.Tracks lost' stuck' Mid Out W)
    (hback : ∀ c a next, e.outcome c = Option.some (a, next) → lost' next.rest → lost c.rest)
    (hstuck : ∀ s, stuck' s → stuckThen s)
    (hgo : ∀ c, stuck c.rest →
      ∃ b next, f.outcome c = Option.some (b, next) ∧ stuckThen next.rest) :
    (e.seq f).Tracks lost stuckThen In Out fun x y ↦ V x.1 y.1 ∧ W x.2 y.2 := by
  intro c c' hc
  have he := h c c' hc
  simp only [outcome]
  cases hx : e.outcome c with
  | none =>
    rw [hx] at he
    generalize e.outcome c' = o' at he ⊢
    cases he with
    | refused => exact .refused
    | lost hl => exact .lost hl
  | some x =>
    rw [hx] at he
    generalize e.outcome c' = o' at he ⊢
    cases he with
    | stuck hs =>
      obtain ⟨b, next, hb, hnext⟩ := hgo _ hs
      simp only [Option.bind_some, hb, Option.map_some]
      exact .stuck hnext
    | @matched a a' next next' hab hmid =>
      have hf := h' next next' hmid
      simp only [Option.bind_some]
      generalize hy : f.outcome next = y at hf ⊢
      generalize f.outcome next' = y' at hf ⊢
      cases hf with
      | refused => exact .refused
      | lost hl => exact .lost (hback c a next hx hl)
      | matched hbd hout => exact .matched ⟨hab, hbd⟩ hout
      | stuck hs => exact .stuck (hstuck _ hs)

/-- One expression after another. -/
theorem seq (h : e.Tracks lost never In Mid V) (h' : f.Tracks never stuck Mid Out W) :
    (e.seq f).Tracks lost stuck In Out fun x y ↦ V x.1 y.1 ∧ W x.2 y.2 :=
  h.seq_of h' (fun _ _ _ _ ↦ False.elim) (fun _ ↦ id) fun _ ↦ False.elim

/-- The first expression that matches of two, of which the first may be stuck. -/
theorem choice_of (h : e.Tracks never stuck In Out V) (h' : e'.Tracks lost stuck In Out V) :
    (e.choice e').Tracks lost stuck In Out V := by
  intro c c' hc
  have he := h c c' hc
  simp only [outcome]
  generalize e.outcome c = o at he ⊢
  generalize e.outcome c' = o' at he ⊢
  cases he with
  | refused => exact h' c c' hc
  | lost hl => exact hl.elim
  | matched hab hout => exact .matched hab hout
  | stuck hs => exact .stuck hs

/-- The first expression that matches of two. -/
theorem choice (h : e.Tracks never never In Out V) (h' : e'.Tracks lost stuck In Out V) :
    (e.choice e').Tracks lost stuck In Out V :=
  choice_of h.of_never h'

/-- A look-ahead reads nothing from either text. -/
theorem without (h : e.Tracks never never In Out V) :
    e.without.Tracks never never In In fun _ _ ↦ True := by
  intro c c' hc
  have he := h c c' hc
  simp only [outcome]
  generalize e.outcome c = o at he ⊢
  generalize e.outcome c' = o' at he ⊢
  cases he with
  | refused => exact .matched trivial hc
  | lost hl => exact hl.elim
  | matched => exact .refused
  | stuck hs => exact hs.elim

/-- Other values. -/
theorem map {g : α → β} (h : e.Tracks lost stuck In Out V) (hw : ∀ a b, V a b → W (g a) (g b)) :
    (e.map g).Tracks lost stuck In Out W :=
  fun c c' hc ↦ (h c c' hc).map fun a b _ _ ↦ hw a b

/-- A rule gives the values of its body, wherever they stand. -/
theorem rule {name : ρ} (h : e.Tracks lost stuck In Out V) :
    (Peg.rule name e).Tracks lost stuck In Out fun a b ↦ V a.value b.value := by
  intro c c' hc
  have he := h c c' hc
  simp only [outcome]
  generalize e.outcome c = o at he ⊢
  generalize e.outcome c' = o' at he ⊢
  cases he with
  | refused => exact .refused
  | lost hl => exact .lost hl
  | matched hab hout => exact .matched hab hout
  | stuck hs => exact .stuck hs

/-- The second of two values. -/
theorem right (h : e.Tracks lost never In Mid V) (h' : f.Tracks never stuck Mid Out W) :
    (e.right f).Tracks lost stuck In Out W :=
  (h.seq h').map fun _ _ hx ↦ hx.2

/-- The first of two values. -/
theorem left (h : e.Tracks lost never In Mid V) (h' : f.Tracks never stuck Mid Out W) :
    (e.left f).Tracks lost stuck In Out V :=
  (h.seq h').map fun _ _ hx ↦ hx.1

/-- Where an option of the first text is lost, it matches with nothing, and is stuck. -/
theorem optional (h : e.Tracks lost stuck In Out V) (hio : ∀ s t, In s t → Out s t)
    (hl : ∀ s, lost s → stuck' s) (hs : ∀ s, stuck s → stuck' s) :
    e.optional.Tracks never stuck' In Out (Option.Rel V) := by
  intro c c' hc
  have he := h c c' hc
  simp only [outcome]
  generalize e.outcome c = o at he ⊢
  generalize e.outcome c' = o' at he ⊢
  cases he with
  | refused => exact .matched .none (hio _ _ hc)
  | lost h => exact .stuck (hl _ h)
  | matched hab hout => exact .matched (.some hab) hout
  | stuck h => exact .stuck (hs _ h)

/-- A repetition that is lost is stuck where it is, and one that is stuck where it ends. -/
theorem many_of (hr : e.reads = true) (h : e.Tracks lost stuck In In V)
    (hl : ∀ s, lost s → stuck' s)
    (hs : ∀ c as last, stuck c.rest → e.many.outcome c = Option.some (as, last) →
      stuck' last.rest) :
    e.many.Tracks never stuck' In In (List.Forall₂ V) := by
  intro c c' hc
  induction c using many_induction hr generalizing c' with
  | stop c hnone =>
    have he := h c c' hc
    rw [hnone] at he
    rw [outcome_many_of_none hnone]
    generalize ho : e.outcome c' = o' at he
    cases he with
    | refused =>
      rw [outcome_many_of_none ho]
      exact .matched .nil hc
    | lost h => exact .stuck (hl _ h)
  | again c a next hsome ih =>
    have he := h c c' hc
    rw [hsome] at he
    obtain ⟨as, last, hm⟩ := exists_outcome_many e next
    rw [outcome_many_of_some hr hsome hm]
    generalize ho : e.outcome c' = o' at he
    cases he with
    | @matched _ a' _ next' hab hout =>
      have hmany := ih next' hout
      obtain ⟨as', last', hm'⟩ := exists_outcome_many e next'
      rw [outcome_many_of_some hr ho hm']
      rw [hm, hm'] at hmany
      cases hmany with
      | matched hvs hlast => exact .matched (.cons hab hvs) hlast
      | stuck h => exact .stuck h
    | stuck h => exact .stuck (hs next as last h hm)

/-- A repetition that is stuck stays where it is, and one that is lost is stuck from there on. -/
theorem many (hr : e.reads = true) (h : e.Tracks lost stuck In In V)
    (hl : ∀ s, lost s → stuck' s)
    (hs : ∀ c, stuck c.rest → stuck' c.rest ∧ e.outcome c = none) :
    e.many.Tracks never stuck' In In (List.Forall₂ V) := by
  refine h.many_of hr hl fun c as last hc hm ↦ ?_
  obtain ⟨hstuck, hnone⟩ := hs c hc
  rw [outcome_many_of_none hnone, Option.some.injEq, Prod.mk.injEq] at hm
  exact hm.2 ▸ hstuck

/-- A repetition with one round at least. -/
theorem some (hr : e.reads = true) (h : e.Tracks never never In In V) :
    e.some.Tracks never never In In (List.Forall₂ V) :=
  (h.seq (h.many hr (fun _ ↦ id) fun _ ↦ False.elim)).map fun _ _ hx ↦ .cons hx.1 hx.2

end Tracks

end TapeMachine.Peg
