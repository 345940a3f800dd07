import TapeMachine.Proofs.Peg.Outcome

/-!
# Values of parsing expressions

What holds of every value that an expression gives, wherever it matches. There is one lemma for each
way to build expressions.
-/

namespace TapeMachine.Peg

variable {ρ α β : Type}

/-- Every value of the expression has the property. -/
def Yields (e : Peg ρ α) (V : α → Prop) : Prop :=
  ∀ c a next, e.outcome c = Option.some (a, next) → V a

namespace Yields

variable {e : Peg ρ α} {f : Peg ρ β} {V : α → Prop} {W : β → Prop}

/-- Values have every property that follows from one that they have. -/
theorem mono {V' : α → Prop} (h : e.Yields V) (hV : ∀ a, V a → V' a) : e.Yields V' :=
  fun c a next hc ↦ hV a (h c a next hc)

/-- Nothing need be said about values. -/
theorem trivial : e.Yields fun _ ↦ True := fun _ _ _ _ ↦ True.intro

/-- The characters of a class are in it. -/
theorem satisfying (p : Char → Bool) :
    (Peg.satisfying p : Peg ρ Char).Yields fun a ↦ p a = true :=
  fun _ _ _ hc ↦ (passes_of_outcome_satisfying hc).1

/-- A sequence gives a value of each part. -/
theorem seq (h : e.Yields V) (h' : f.Yields W) : (e.seq f).Yields fun v ↦ V v.1 ∧ W v.2 := by
  intro c v last hc
  rw [outcome, Option.bind_eq_some_iff] at hc
  obtain ⟨⟨a, mid⟩, ha, hc⟩ := hc
  obtain ⟨⟨b, last'⟩, hb, heq⟩ := Option.map_eq_some_iff.mp hc
  simp only [Prod.mk.injEq] at heq
  obtain ⟨rfl, rfl⟩ := heq
  exact ⟨h c a mid ha, h' mid b last' hb⟩

/-- A choice gives a value of one of the two. -/
theorem choice {e' : Peg ρ α} (h : e.Yields V) (h' : e'.Yields V) : (e.choice e').Yields V := by
  intro c a next hc
  rw [outcome, Option.or_eq_some_iff] at hc
  rcases hc with hc | ⟨-, hc⟩
  · exact h c a next hc
  · exact h' c a next hc

/-- An option gives a value or none. -/
theorem optional (h : e.Yields V) : e.optional.Yields fun o ↦ ∀ a, o = Option.some a → V a := by
  intro c o next hc
  rw [outcome] at hc
  split at hc
  · next a last ha =>
    simp only [Option.some.injEq, Prod.mk.injEq] at hc
    obtain ⟨rfl, rfl⟩ := hc
    intro a' heq
    rw [← Option.some.inj heq]
    exact h c a last ha
  · simp only [Option.some.injEq, Prod.mk.injEq] at hc
    obtain ⟨rfl, -⟩ := hc
    intro a heq
    cases heq

private theorem mem_manyOutcome {one : Cursor → Option (α × Cursor)}
    (h : ∀ c a next, one c = Option.some (a, next) → V a) (c : Cursor) :
    ∀ a ∈ (manyOutcome one c).1, V a := by
  fun_induction manyOutcome one c with
  | case1 c hc => simp
  | case2 c a next hc hlt more ih => simpa [h c a next hc] using ih
  | case3 c a next hc hlt => simp

/-- A repetition gives a list of values. -/
theorem many (h : e.Yields V) : e.many.Yields fun as ↦ ∀ a ∈ as, V a := by
  intro c as last hc
  rw [outcome, Option.some.injEq] at hc
  have hm := mem_manyOutcome h c
  rwa [hc] at hm

/-- A repetition gives a list of values, one at least. -/
theorem some (h : e.Yields V) : e.some.Yields fun as ↦ as ≠ [] ∧ ∀ a ∈ as, V a := by
  intro c as last hc
  rw [Peg.some, outcome, Option.map_eq_some_iff] at hc
  obtain ⟨⟨⟨a, as'⟩, last'⟩, hv, heq⟩ := hc
  simp only [Prod.mk.injEq] at heq
  obtain ⟨rfl, rfl⟩ := heq
  obtain ⟨ha, has⟩ := h.seq h.many c (a, as') last' hv
  exact ⟨by simp, by simpa using ⟨ha, has⟩⟩

/-- Another value has a property that follows. -/
theorem map {g : α → β} (h : e.Yields V) (hW : ∀ a, V a → W (g a)) : (e.map g).Yields W := by
  intro c b next hc
  rw [outcome, Option.map_eq_some_iff] at hc
  obtain ⟨⟨a, last⟩, ha, heq⟩ := hc
  simp only [Prod.mk.injEq] at heq
  obtain ⟨rfl, rfl⟩ := heq
  exact hW a (h c a last ha)

/-- The second of two values counts. -/
theorem right (e : Peg ρ α) (h : f.Yields W) : (e.right f).Yields W :=
  (trivial.seq h).map fun _ hv ↦ hv.2

/-- The first of two values counts. -/
theorem left (h : e.Yields V) (f : Peg ρ β) : (e.left f).Yields V :=
  (h.seq trivial).map fun _ hv ↦ hv.1

/-- A rule gives the value of its body. -/
theorem rule {name : ρ} (h : e.Yields V) : (Peg.rule name e).Yields fun v ↦ V v.value := by
  intro c v next hc
  rw [outcome, Option.map_eq_some_iff] at hc
  obtain ⟨⟨a, last⟩, ha, heq⟩ := hc
  simp only [Prod.mk.injEq] at heq
  obtain ⟨rfl, rfl⟩ := heq
  exact h c a last ha

end Yields

end TapeMachine.Peg
