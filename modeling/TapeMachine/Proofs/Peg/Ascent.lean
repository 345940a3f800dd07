import TapeMachine.Proofs.Peg.Outcome

/-!
# The order of located parts

The located parts of a value lie in the stretch that the value was read from, and those that are
read later lie further behind. There is one lemma for each way to build expressions.
-/

namespace TapeMachine.Peg

variable {ρ α β γ ι : Type}

/-! ### Parts of a stretch -/

/-- The parts lie in a stretch, each of them begins behind the one before it. -/
structure Between (start stop : Nat) (parts : List (Located ι)) : Prop where
  start_le_stop : start ≤ stop
  within : ∀ p ∈ parts, start ≤ p.span.start ∧ p.span.start < stop
  stops : ∀ p ∈ parts, p.span.stop ≤ stop
  ascending : parts.Pairwise fun p q ↦ p.span.start < q.span.start

namespace Between

variable {start mid stop : Nat} {parts others : List (Located ι)} {p : Located ι}

theorem nil (h : start ≤ stop) : Between start stop ([] : List (Located ι)) where
  start_le_stop := h
  within _ hp := absurd hp List.not_mem_nil
  stops _ hp := absurd hp List.not_mem_nil
  ascending := .nil

/-- The parts of one stretch lie before those of the next. -/
theorem append (h : Between start mid parts) (h' : Between mid stop others) :
    Between start stop (parts ++ others) := by
  have hle := h.start_le_stop
  have hle' := h'.start_le_stop
  refine ⟨Nat.le_trans hle hle', fun p hp ↦ ?_, fun p hp ↦ ?_, ?_⟩
  · rcases List.mem_append.mp hp with hp | hp
    · have := h.within p hp
      omega
    · have := h'.within p hp
      omega
  · rcases List.mem_append.mp hp with hp | hp
    · exact Nat.le_trans (h.stops p hp) hle'
    · exact h'.stops p hp
  · refine List.pairwise_append.mpr ⟨h.ascending, h'.ascending, fun p hp q hq ↦ ?_⟩
    exact Nat.lt_of_lt_of_le (h.within p hp).2 (h'.within q hq).1

/-- A part at the start of a stretch lies before the parts that begin behind its start. -/
theorem cons (h : p.span.start < mid) (hstop : p.span.stop ≤ stop) (h' : Between mid stop parts) :
    Between p.span.start stop (p :: parts) := by
  have hle := h'.start_le_stop
  refine ⟨by omega, fun q hq ↦ ?_, fun q hq ↦ ?_, ?_⟩
  · rcases List.mem_cons.mp hq with rfl | hq
    · omega
    · have := h'.within q hq
      omega
  · rcases List.mem_cons.mp hq with rfl | hq
    · exact hstop
    · exact h'.stops q hq
  · refine List.pairwise_cons.mpr ⟨fun q hq ↦ ?_, h'.ascending⟩
    exact Nat.lt_of_lt_of_le h (h'.within q hq).1

/-- A stretch with something in it has a part at its start. -/
theorem singleton (h : p.span.start < stop) (hstop : p.span.stop ≤ stop) :
    Between p.span.start stop [p] :=
  cons h hstop (nil (Nat.le_refl stop))

end Between

/-! ### Parts of a value -/

theorem pos_le_of_outcome {e : Peg ρ α} {c next : Cursor} {a : α}
    (h : e.outcome c = Option.some (a, next)) : c.pos ≤ next.pos := by
  obtain ⟨w, hw, -⟩ := outcome_passes h
  rw [hw.pos_eq]
  exact Nat.le_add_right _ _

theorem pos_lt_of_outcome {e : Peg ρ α} (hr : e.reads = true) {c next : Cursor} {a : α}
    (h : e.outcome c = Option.some (a, next)) : c.pos < next.pos := by
  obtain ⟨w, hw, hne⟩ := outcome_passes h
  rw [hw.pos_eq]
  exact Nat.lt_add_of_pos_right (List.length_pos_iff.mpr (hne hr))

/-- The parts of every value begin in the stretch that the value is read from, in order. -/
def Ascends (e : Peg ρ α) (parts : α → List (Located ι)) : Prop :=
  ∀ c a next, e.outcome c = Option.some (a, next) → Between c.pos next.pos (parts a)

namespace Ascends

variable {e : Peg ρ α} {f : Peg ρ β} {ps : α → List (Located ι)} {qs : β → List (Located ι)}

/-- A value need not have parts. -/
theorem nothing : e.Ascends fun _ ↦ ([] : List (Located ι)) :=
  fun _ _ _ hc ↦ .nil (pos_le_of_outcome hc)

/-- The parts of a sequence are those of the first value and those of the second. -/
theorem seq (h : e.Ascends ps) (h' : f.Ascends qs) :
    (e.seq f).Ascends fun v ↦ ps v.1 ++ qs v.2 := by
  intro c v last hc
  obtain ⟨mid, ha, hb⟩ := outcome_seq_eq_some_iff.mp hc
  exact (h c v.1 mid ha).append (h' mid v.2 last hb)

/-- A choice has the parts of the value that is read. -/
theorem choice {e' : Peg ρ α} (h : e.Ascends ps) (h' : e'.Ascends ps) :
    (e.choice e').Ascends ps := by
  intro c a next hc
  rw [outcome, Option.or_eq_some_iff] at hc
  rcases hc with hc | ⟨-, hc⟩
  · exact h c a next hc
  · exact h' c a next hc

/-- An option has the parts of its value, if there is one. -/
theorem optional (h : e.Ascends ps) : e.optional.Ascends fun o ↦ o.toList.flatMap ps := by
  intro c o next hc
  rw [outcome] at hc
  split at hc
  · next a last ha =>
    simp only [Option.some.injEq, Prod.mk.injEq] at hc
    obtain ⟨rfl, rfl⟩ := hc
    simpa using h c a last ha
  · cases hc
    exact .nil (Nat.le_refl _)

private theorem between_manyOutcome {one : Cursor → Option (α × Cursor)}
    (h : ∀ c a next, one c = Option.some (a, next) → Between c.pos next.pos (ps a)) (c : Cursor) :
    Between c.pos (manyOutcome one c).2.pos ((manyOutcome one c).1.flatMap ps) := by
  fun_induction manyOutcome one c with
  | case1 c hc => exact .nil (Nat.le_refl _)
  | case2 c a next hc hlt more ih =>
    rw [List.flatMap_cons]
    exact (h c a next hc).append ih
  | case3 c a next hc hlt => exact .nil (Nat.le_refl _)

/-- A repetition has the parts of all its values. -/
theorem many (h : e.Ascends ps) : e.many.Ascends fun as ↦ as.flatMap ps := by
  intro c as last hc
  have hm := between_manyOutcome h c
  rwa [Option.some.inj hc] at hm

/-- Another value may show the same parts. -/
theorem map (h : e.Ascends ps) {g : α → β} (hg : ∀ a, qs (g a) = ps a) : (e.map g).Ascends qs := by
  intro c b next hc
  rw [outcome, Option.map_eq_some_iff] at hc
  obtain ⟨⟨a, last⟩, ha, heq⟩ := hc
  cases heq
  exact hg a ▸ h c a last ha

/-- The second of two values counts. -/
theorem right (e : Peg ρ α) (h : f.Ascends qs) : (e.right f).Ascends qs :=
  ((nothing (e := e)).seq h).map fun _ ↦ rfl

/-- The first of two values counts. -/
theorem left (h : e.Ascends ps) (f : Peg ρ β) : (e.left f).Ascends ps :=
  (h.seq nothing).map fun _ ↦ (List.append_nil _).symm

/-- A rule has the parts of its body. -/
theorem rule {name : ρ} (h : e.Ascends ps) : (Peg.rule name e).Ascends fun v ↦ ps v.value := by
  intro c v next hc
  rw [outcome, Option.map_eq_some_iff] at hc
  obtain ⟨⟨a, last⟩, ha, heq⟩ := hc
  cases heq
  exact h c a last ha

/-- What a rule reads is a part at the place where the rule begins. -/
theorem located {name : ρ} (hr : e.reads = true) (mk : α → ι) :
    (Peg.rule name e).Ascends fun v ↦ [⟨mk v.value, v.span⟩] := by
  intro c v next hc
  have hlt := pos_lt_of_outcome (e := .rule name e) hr hc
  rw [outcome, Option.map_eq_some_iff] at hc
  obtain ⟨⟨a, last⟩, -, heq⟩ := hc
  cases heq
  exact .singleton (p := ⟨mk a, c.pos, last.pos⟩) hlt (Nat.le_refl _)

/-- What a rule reads, be it nothing, is a part if something else is read behind it. -/
theorem located_left {name : ρ} (hr : f.reads = true) (mk : α → ι) :
    ((Peg.rule name e).left f).Ascends fun v ↦ [⟨mk v.value, v.span⟩] := by
  intro c v next hc
  rw [Peg.left, outcome, Option.map_eq_some_iff] at hc
  obtain ⟨⟨⟨w, b⟩, last⟩, hc, heq⟩ := hc
  cases heq
  obtain ⟨mid, hw, hb⟩ := outcome_seq_eq_some_iff.mp hc
  have hle := pos_le_of_outcome hw
  have hlt := pos_lt_of_outcome hr hb
  rw [outcome, Option.map_eq_some_iff] at hw
  obtain ⟨⟨a, stop⟩, -, heq⟩ := hw
  cases heq
  exact .singleton (p := ⟨mk a, c.pos, stop.pos⟩) (Nat.lt_of_le_of_lt hle hlt) (Nat.le_of_lt hlt)

/-- What a rule reads is a part, and behind it are the parts of what follows its first piece. -/
theorem headed {name : ρ} {e : Peg ρ α} {f : Peg ρ β} {g : β → γ} (hr : e.reads = true)
    (h : f.Ascends qs) (head : γ → ι) {rs : γ → List (Located ι)} (hg : ∀ b, rs (g b) = qs b) :
    (Peg.rule name ((e.right f).map g)).Ascends fun v ↦ ⟨head v.value, v.span⟩ :: rs v.value := by
  intro c v next hc
  rw [outcome, outcome, Option.map_map, Option.map_eq_some_iff] at hc
  obtain ⟨⟨b, last⟩, hc, heq⟩ := hc
  cases heq
  obtain ⟨a, mid, ha, hb⟩ := outcome_right_eq_some_iff.mp hc
  have hlt := pos_lt_of_outcome hr ha
  simp only [hg]
  exact .cons (p := ⟨head (g b), c.pos, last.pos⟩) hlt (Nat.le_refl _) (h mid b last hb)

end Ascends

end TapeMachine.Peg
