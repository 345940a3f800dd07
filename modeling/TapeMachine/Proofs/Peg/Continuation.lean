import TapeMachine.Proofs.Peg.Outcome

/-!
# Texts that go on

What an expression makes of a text may not change when the text goes on. `Continues` says so of one
continuation: a match stays the same match, and a refusal a refusal. An expression that has no
business with the character at which the text goes on continues over it (`continues_of_avoids`).
-/

namespace TapeMachine.Peg

variable {ρ α β : Type}

/-- The same place in a text that goes on. -/
def Cursor.extend (c : Cursor) (more : List Char) : Cursor := ⟨c.rest ++ more, c.pos⟩

theorem Cursor.rest_extend (c : Cursor) (more : List Char) :
    (c.extend more).rest = c.rest ++ more := rfl

/-- The same word leads to the same place in a text that goes on. -/
theorem Cursor.Passes.eq_extend {c next next' : Cursor} {w w' more : List Char}
    (h : c.Passes w next) (h' : (c.extend more).Passes w' next')
    (hrest : next'.rest = (next.extend more).rest) : next' = next.extend more := by
  have hword : w' = w := by
    have heq : w' ++ (next.extend more).rest = w ++ (next.extend more).rest := by
      rw [← hrest, ← h'.rest_eq, hrest, rest_extend, rest_extend, ← List.append_assoc, ← h.rest_eq]
    exact List.append_cancel_right heq
  rw [h'.eq, hword, hrest, extend, extend, h.pos_eq]

/-- The expression makes of every text what it makes of it before this continuation. -/
def Continues (more : List Char) (e : Peg ρ α) : Prop :=
  ∀ c : Cursor, e.outcome (c.extend more) = (e.outcome c).map fun x ↦ (x.1, x.2.extend more)

/-- The expression has nothing to do with a character: neither a text nor a class in it has it, and
it does not ask for the end. -/
def avoids (stop : Char) : {α : Type} → Peg ρ α → Bool
  | _, .literal text => text.toList.all fun c ↦ c ≠ stop
  | _, .satisfying p => !p stop
  | _, .ends => false
  | _, .seq first second => first.avoids stop && second.avoids stop
  | _, .choice first second => first.avoids stop && second.avoids stop
  | _, .optional e => e.avoids stop
  | _, .many e => e.avoids stop
  | _, .without e => e.avoids stop
  | _, .map _ e => e.avoids stop
  | _, .rule _ e => e.avoids stop

/-- A text that does not go on with a character of its own is dropped before the continuation. -/
theorem dropText?_append {text more : List Char} (h : ∀ c, more.head? = Option.some c → c ∉ text)
    (cs : List Char) : dropText? text (cs ++ more) = (dropText? text cs).map (· ++ more) := by
  induction text generalizing cs with
  | nil => rfl
  | cons t ts ih =>
    cases cs with
    | nil =>
      cases more with
      | nil => rfl
      | cons a more =>
        have hne : t ≠ a := by
          rintro rfl
          exact h t rfl List.mem_cons_self
        exact if_neg hne
    | cons c cs =>
      rw [List.cons_append, dropText?, dropText?]
      split
      · exact ih (fun a ha hmem ↦ h a ha (List.mem_cons_of_mem t hmem)) cs
      · rfl

namespace Continues

variable {more : List Char} {e e' : Peg ρ α} {f : Peg ρ β}

theorem literal {s : String} (h : ∀ c, more.head? = Option.some c → c ∉ s.toList) :
    (Peg.literal s : Peg ρ Unit).Continues more := by
  intro c
  rw [outcome, outcome, Cursor.extend, dropText?_append h, Option.map_map, Option.map_map]
  rfl

theorem satisfying {p : Char → Bool} (h : ∀ c, more.head? = Option.some c → p c = false) :
    (Peg.satisfying p : Peg ρ Char).Continues more := by
  rintro ⟨rest, pos⟩
  cases rest with
  | nil =>
    cases more with
    | nil => rfl
    | cons a more => simp [outcome, Cursor.extend, h a rfl]
  | cons a rest =>
    simp only [outcome, Cursor.extend, List.cons_append]
    split <;> rfl

theorem seq (h : e.Continues more) (h' : f.Continues more) : (e.seq f).Continues more := by
  intro c
  rw [outcome, outcome, h c]
  cases e.outcome c with
  | none => rfl
  | some x =>
    simp only [Option.map_some, Option.bind_some, h' x.2]
    cases f.outcome x.2 <;> rfl

theorem choice (h : e.Continues more) (h' : e'.Continues more) : (e.choice e').Continues more := by
  intro c
  rw [outcome, outcome, h c, h' c]
  cases e.outcome c <;> rfl

theorem optional (h : e.Continues more) : e.optional.Continues more := by
  intro c
  simp only [outcome, h c]
  cases e.outcome c <;> rfl

theorem many (hr : e.reads = true) (h : e.Continues more) : e.many.Continues more := by
  intro c
  induction c using many_induction hr with
  | stop c hnone =>
    have hnone' : e.outcome (c.extend more) = none := by rw [h c, hnone, Option.map_none]
    rw [outcome_many_of_none hnone, outcome_many_of_none hnone', Option.map_some]
  | again c a next hsome ih =>
    have hsome' : e.outcome (c.extend more) = Option.some (a, next.extend more) := by
      rw [h c, hsome, Option.map_some]
    obtain ⟨as, last, hm⟩ := exists_outcome_many e next
    rw [hm, Option.map_some] at ih
    rw [outcome_many_of_some hr hsome hm, outcome_many_of_some hr hsome' ih, Option.map_some]

theorem without (h : e.Continues more) : e.without.Continues more := by
  intro c
  rw [outcome, outcome, h c, Option.isSome_map]
  split <;> rfl

theorem map (h : e.Continues more) (g : α → β) : (e.map g).Continues more := by
  intro c
  rw [outcome, outcome, h c, Option.map_map, Option.map_map]
  rfl

theorem rule (h : e.Continues more) (name : ρ) : (Peg.rule name e).Continues more := by
  intro c
  rw [outcome, outcome, h c, Option.map_map, Option.map_map]
  rfl

theorem right (h : e.Continues more) (h' : f.Continues more) : (e.right f).Continues more :=
  (h.seq h').map Prod.snd

end Continues

/-- An expression that avoids the character at which a text goes on makes the same of it. -/
theorem continues_of_avoids {stop : Char} {more : List Char}
    (hmore : ∀ c, more.head? = Option.some c → c = stop) {e : Peg ρ α} (hf : e.founded = true)
    (h : e.avoids stop = true) : e.Continues more := by
  induction e with
  | literal text =>
    refine .literal fun c hc hmem ↦ ?_
    rw [avoids, List.all_eq_true] at h
    simpa [hmore c hc] using h c hmem
  | satisfying p =>
    refine .satisfying fun c hc ↦ ?_
    rw [hmore c hc]
    simpa [avoids] using h
  | ends => cases h
  | seq first second ih ih' =>
    rw [avoids, Bool.and_eq_true] at h
    rw [founded, Bool.and_eq_true] at hf
    exact (ih hf.1 h.1).seq (ih' hf.2 h.2)
  | choice first second ih ih' =>
    rw [avoids, Bool.and_eq_true] at h
    rw [founded, Bool.and_eq_true] at hf
    exact (ih hf.1 h.1).choice (ih' hf.2 h.2)
  | optional e ih => exact (ih hf h).optional
  | many e ih =>
    rw [founded, Bool.and_eq_true] at hf
    exact (ih hf.2 h).many hf.1
  | without e ih => exact (ih hf h).without
  | map g e ih => exact (ih hf h).map g
  | rule name e ih => exact (ih hf h).rule name

end TapeMachine.Peg
