import TapeMachine.Proofs.Peg.Continuation
import TapeMachine.Proofs.Peg.Rounds

/-!
# Values that are read elsewhere

Values of an expression are alike if they are the same but for the places of its rules. From two
texts that begin alike and stay alike up to certain characters, an expression that has nothing to do
with these characters reads values that are alike (`tracks_of_avoids`). So every expression reads
the same from the same text, whatever lies before it (`tracks_same`).
-/

namespace TapeMachine.Peg

variable {ρ α β : Type}

/-- The values are the same, wherever the rules in them stand. -/
def Alike : {α : Type} → Peg ρ α → α → α → Prop
  | _, .literal _, _, _ => True
  | _, .satisfying _, a, b => a = b
  | _, .ends, _, _ => True
  | _, .seq first second, x, y => first.Alike x.1 y.1 ∧ second.Alike x.2 y.2
  | _, .choice first second, x, y => first.Alike x y ∨ second.Alike x y
  | _, .optional e, x, y => Option.Rel e.Alike x y
  | _, .many e, x, y => List.Forall₂ e.Alike x y
  | _, .without _, _, _ => True
  | _, .map f e, x, y => ∃ a b, e.Alike a b ∧ x = f a ∧ y = f b
  | _, .rule _ e, x, y => e.Alike x.value y.value

variable {e : Peg ρ α} {f : Peg ρ β}

/-- Of two values the second counts. -/
theorem alike_right {x y : β} (h : (e.right f).Alike x y) : f.Alike x y := by
  obtain ⟨_, _, h, rfl, rfl⟩ := h
  exact h.2

/-- Of two values the first counts. -/
theorem alike_left {x y : α} (h : (e.left f).Alike x y) : e.Alike x y := by
  obtain ⟨_, _, h, rfl, rfl⟩ := h
  exact h.1

/-- Related texts begin alike, and behind a character that is no stop they are related again. -/
structure Alongside (stops : List Char) (R : List Char → List Char → Prop) : Prop where
  head : ∀ {s t}, R s t → s.head? = t.head?
  tail : ∀ {a s t}, R (a :: s) (a :: t) → a ∉ stops → R s t

namespace Alongside

variable {stops : List Char} {R : List Char → List Char → Prop}

/-- Related texts end together. -/
theorem nil_iff (hR : Alongside stops R) {s t : List Char} (h : R s t) : s = [] ↔ t = [] := by
  rw [← List.head?_eq_none_iff, hR.head h, List.head?_eq_none_iff]

theorem exists_of_cons (hR : Alongside stops R) {a : Char} {s u : List Char} (h : R (a :: s) u) :
    ∃ t, u = a :: t := by
  obtain ⟨t, rfl⟩ := List.head?_eq_some_iff.mp (hR.head h).symm
  exact ⟨t, rfl⟩

/-- A text without stops is dropped from both or from neither. -/
theorem dropText? (hR : Alongside stops R) {text : List Char} (ht : ∀ a ∈ text, a ∉ stops)
    {s t : List Char} (h : R s t) :
    Option.Rel R (Peg.dropText? text s) (Peg.dropText? text t) := by
  induction text generalizing s t with
  | nil => exact .some h
  | cons a text ih =>
    obtain ⟨hstop, ht⟩ := List.forall_mem_cons.mp ht
    cases s with
    | nil =>
      obtain rfl := (hR.nil_iff h).mp rfl
      exact .none
    | cons b s =>
      obtain ⟨t, rfl⟩ := hR.exists_of_cons h
      rw [Peg.dropText?, Peg.dropText?]
      split
      · next heq => exact ih ht (hR.tail h (heq ▸ hstop))
      · exact .none

theorem tracks_literal (hR : Alongside stops R) {text : String}
    (ht : ∀ a ∈ text.toList, a ∉ stops) :
    (Peg.literal text : Peg ρ Unit).Tracks never never R R fun _ _ ↦ True := by
  intro c c' hc
  have hdrop := hR.dropText? ht hc
  simp only [outcome]
  generalize Peg.dropText? text.toList c.rest = o at hdrop ⊢
  generalize Peg.dropText? text.toList c'.rest = o' at hdrop ⊢
  cases hdrop with
  | none => exact .refused
  | some hrest => exact .matched trivial hrest

theorem tracks_satisfying (hR : Alongside stops R) {p : Char → Bool}
    (hp : ∀ a ∈ stops, p a = false) :
    (Peg.satisfying p : Peg ρ Char).Tracks never never R R (· = ·) := by
  rintro ⟨s, pos⟩ ⟨t, pos'⟩ (h : R s t)
  cases s with
  | nil =>
    obtain rfl := (hR.nil_iff h).mp rfl
    exact .refused
  | cons a s =>
    obtain ⟨t, rfl⟩ := hR.exists_of_cons h
    simp only [outcome]
    split
    · next ha =>
      refine .matched rfl (hR.tail h fun hstop ↦ ?_)
      rw [hp a hstop] at ha
      cases ha
    · exact .refused

end Alongside

/-- Without the stops an expression reads alike from texts that are alike up to there. -/
theorem tracks_of_avoids {stops : List Char} {R : List Char → List Char → Prop}
    (hR : Alongside stops R) (hf : e.founded = true) (h : ∀ a ∈ stops, e.avoids a = true) :
    e.Tracks never never R R e.Alike := by
  induction e with
  | literal text =>
    refine hR.tracks_literal fun a ha hstop ↦ ?_
    simpa using List.all_eq_true.mp (h a hstop) a ha
  | satisfying p => exact hR.tracks_satisfying fun a ha ↦ by simpa [avoids] using h a ha
  | ends => exact .ends fun _ _ ↦ hR.nil_iff
  | seq first second ih ih' =>
    rw [founded, Bool.and_eq_true] at hf
    simp only [avoids, Bool.and_eq_true] at h
    exact (ih hf.1 fun a ha ↦ (h a ha).1).seq (ih' hf.2 fun a ha ↦ (h a ha).2)
  | choice first second ih ih' =>
    rw [founded, Bool.and_eq_true] at hf
    simp only [avoids, Bool.and_eq_true] at h
    exact ((ih hf.1 fun a ha ↦ (h a ha).1).mono (fun _ _ ↦ id) (fun _ _ ↦ id) fun _ _ ↦ .inl).choice
      ((ih' hf.2 fun a ha ↦ (h a ha).2).mono (fun _ _ ↦ id) (fun _ _ ↦ id) fun _ _ ↦ .inr)
  | optional e ih => exact (ih hf h).optional (fun _ _ ↦ id) (fun _ ↦ id) fun _ ↦ id
  | many e ih =>
    rw [founded, Bool.and_eq_true] at hf
    exact (ih hf.2 h).many hf.1 (fun _ ↦ id) fun _ ↦ False.elim
  | without e ih => exact (ih hf h).without
  | map f e ih => exact (ih hf h).map fun a b hab ↦ ⟨a, b, hab, rfl, rfl⟩
  | rule name e ih => exact (ih hf h).rule

/-- An expression reads the same from the same text. -/
theorem tracks_same (hf : e.founded = true) : e.Tracks never never Eq Eq e.Alike := by
  have hsame : Alongside [] (Eq : List Char → List Char → Prop) :=
    ⟨congrArg _, fun h _ ↦ (List.cons.inj h).2⟩
  exact tracks_of_avoids hsame hf fun _ h ↦ absurd h List.not_mem_nil

section

variable {c c' next last : Cursor} {a : α} {as : List α}

/-- What matches one text matches the same text elsewhere. -/
theorem exists_outcome_same (h : e.outcome c = Option.some (a, next)) (hf : e.founded = true)
    (hc : c.rest = c'.rest) : ∃ b next', e.outcome c' = Option.some (b, next') ∧ e.Alike a b ∧
      next.rest = next'.rest := by
  have hsame := tracks_same hf c c' hc
  rw [h] at hsame
  exact hsame.exists_of_some

/-- What is refused one text is refused the same text elsewhere. -/
theorem outcome_none_same (h : e.outcome c = none) (hf : e.founded = true)
    (hc : c.rest = c'.rest) : e.outcome c' = none := by
  have hsame := tracks_same hf c c' hc
  rw [h] at hsame
  exact hsame.eq_none_of_none

/-- Rounds go the same on the same text. -/
theorem Rounds.exists_same (h : e.Rounds c as last) (hf : e.founded = true)
    (hc : c.rest = c'.rest) : ∃ bs last', e.Rounds c' bs last' ∧
      List.Forall₂ e.Alike as bs ∧ last.rest = last'.rest :=
  h.exists_of_tracks (tracks_same hf) (fun _ _ _ _ ↦ False.elim) id hc

end

end TapeMachine.Peg
