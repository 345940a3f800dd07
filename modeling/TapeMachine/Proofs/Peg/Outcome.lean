import TapeMachine.Peg

/-!
# Outcomes of parsing expressions

What becomes of an expression at a place, without the misses that a scan gathers and without a bound
on its rounds. An expression is founded if every repetition in it repeats something that reads a
character; the scan of a founded expression, given rounds enough, comes to its outcome
(`scan_eq_outcome`), whatever the misses.
-/

namespace TapeMachine.Peg

variable {ρ α β : Type}

/-! ### Outcomes -/

/-- Repeats `one` for as long as it matches and gets on, and gives the values in order. -/
def manyOutcome (one : Cursor → Option (α × Cursor)) (c : Cursor) : List α × Cursor :=
  match one c with
  | none => ([], c)
  | Option.some (a, next) =>
    if next.rest.length < c.rest.length then
      let more := manyOutcome one next
      (a :: more.1, more.2)
    else ([], c)
termination_by c.rest.length

/-- The value of an expression at a place and the place behind it, or nothing if it is refused. -/
def outcome : {α : Type} → Peg ρ α → Cursor → Option (α × Cursor)
  | _, .literal text, c =>
    (dropText? text.toList c.rest).map fun rest ↦ ((), ⟨rest, c.pos + text.length⟩)
  | _, .satisfying p, c =>
    match c.rest with
    | [] => none
    | a :: rest => if p a then Option.some (a, ⟨rest, c.pos + 1⟩) else none
  | _, .ends, c => if c.rest = [] then Option.some ((), c) else none
  | _, .seq first second, c =>
    (first.outcome c).bind fun x ↦ (second.outcome x.2).map fun y ↦ ((x.1, y.1), y.2)
  | _, .choice first second, c => (first.outcome c).or (second.outcome c)
  | _, .optional e, c =>
    match e.outcome c with
    | Option.some (a, next) => Option.some (Option.some a, next)
    | none => Option.some (none, c)
  | _, .many e, c => Option.some (manyOutcome e.outcome c)
  | _, .without e, c => if (e.outcome c).isSome then none else Option.some ((), c)
  | _, .map f e, c => (e.outcome c).map fun x ↦ (f x.1, x.2)
  | _, .rule _ e, c => (e.outcome c).map fun x ↦ (⟨x.1, c.pos, x.2.pos⟩, x.2)

/-- Every match reads a character at least. -/
def reads : {α : Type} → Peg ρ α → Bool
  | _, .literal text => text.length ≠ 0
  | _, .satisfying _ => true
  | _, .ends => false
  | _, .seq first second => first.reads || second.reads
  | _, .choice first second => first.reads && second.reads
  | _, .optional _ => false
  | _, .many _ => false
  | _, .without _ => false
  | _, .map _ e => e.reads
  | _, .rule _ e => e.reads

/-- Every repetition repeats something that reads. -/
def founded : {α : Type} → Peg ρ α → Bool
  | _, .literal _ => true
  | _, .satisfying _ => true
  | _, .ends => true
  | _, .seq first second => first.founded && second.founded
  | _, .choice first second => first.founded && second.founded
  | _, .optional e => e.founded
  | _, .many e => e.reads && e.founded
  | _, .without e => e.founded
  | _, .map _ e => e.founded
  | _, .rule _ e => e.founded

-- Expressions are taken apart by the equations of these functions throughout.
attribute [local simp] outcome reads founded scan

/-! ### What is read -/

/-- From `c` the word `w` leads to `next`. -/
structure Cursor.Passes (c : Cursor) (w : List Char) (next : Cursor) : Prop where
  rest_eq : c.rest = w ++ next.rest
  pos_eq : next.pos = c.pos + w.length

namespace Cursor

/-- The empty word leads nowhere else. -/
theorem passes_nil (c : Cursor) : c.Passes [] c := ⟨rfl, rfl⟩

/-- Words that follow one another make one word. -/
theorem Passes.append {c next last : Cursor} {v w : List Char} (h : c.Passes v next)
    (h' : next.Passes w last) : c.Passes (v ++ w) last := by
  constructor
  · rw [h.rest_eq, h'.rest_eq, List.append_assoc]
  · rw [h'.pos_eq, h.pos_eq, List.length_append]
    omega

/-- As much is left as was there without the word. -/
theorem Passes.length_eq {c next : Cursor} {w : List Char} (h : c.Passes w next) :
    c.rest.length = w.length + next.rest.length := by
  rw [h.rest_eq, List.length_append]

/-- Between two places there is one word. -/
theorem Passes.unique {c next : Cursor} {v w : List Char} (h : c.Passes v next)
    (h' : c.Passes w next) : v = w := by
  have := h.rest_eq.symm.trans h'.rest_eq
  exact List.append_cancel_right this

/-- The place behind a word is that many characters further on. -/
theorem Passes.eq {c next : Cursor} {w : List Char} (h : c.Passes w next) :
    next = ⟨next.rest, c.pos + w.length⟩ := by
  rw [← h.pos_eq]

/-- A word behind which as much is left leads nowhere else. -/
theorem Passes.eq_of_rest_eq {c next : Cursor} {w : List Char} (h : c.Passes w next)
    (hr : next.rest = c.rest) : next = c := by
  have hw : w = [] := by simpa [hr] using h.rest_eq
  rw [h.eq, hw, hr]
  rfl

end Cursor

/-- A text is dropped exactly if it is the beginning. -/
theorem dropText?_eq_some_iff {text cs rest : List Char} :
    dropText? text cs = Option.some rest ↔ cs = text ++ rest := by
  induction text generalizing cs with
  | nil => simp [dropText?]
  | cons t ts ih =>
    cases cs with
    | nil => simp [dropText?]
    | cons c cs =>
      rw [dropText?]
      split
      · next h => simp [h, ih]
      · next h =>
        constructor
        · intro hn
          cases hn
        · intro he
          exact absurd (List.cons.inj he).1.symm h

/-- A text that is no beginning is not dropped. -/
theorem dropText?_eq_none_iff {text cs : List Char} :
    dropText? text cs = none ↔ ¬text <+: cs := by
  rw [Option.eq_none_iff_forall_ne_some]
  constructor
  · rintro h ⟨rest, hr⟩
    exact h rest (dropText?_eq_some_iff.mpr hr.symm)
  · intro h rest hr
    exact h ⟨rest, (dropText?_eq_some_iff.mp hr).symm⟩

/-- A class reads one of its characters. -/
theorem passes_of_outcome_satisfying {p : Char → Bool} {c next : Cursor} {a : Char}
    (h : (satisfying p : Peg ρ Char).outcome c = Option.some (a, next)) :
    p a = true ∧ c.Passes [a] next := by
  obtain ⟨rest, pos⟩ := c
  cases rest with
  | nil => simp [outcome] at h
  | cons x rest =>
    simp only [outcome] at h
    split at h
    · next hx =>
      simp only [Option.some.injEq, Prod.mk.injEq] at h
      obtain ⟨rfl, rfl⟩ := h
      exact ⟨hx, rfl, rfl⟩
    · cases h

/-- Whether a text matches is whether it is the beginning. -/
theorem isSome_outcome_literal (s : String) (c : Cursor) :
    ((literal s : Peg ρ Unit).outcome c).isSome = s.toList.isPrefixOf c.rest := by
  rw [Bool.eq_iff_iff, List.isPrefixOf_iff_prefix, outcome, Option.isSome_map,
    Option.isSome_iff_ne_none, ne_eq, dropText?_eq_none_iff, Decidable.not_not]

/-- Whether a choice matches is whether one of its expressions does. -/
theorem isSome_outcome_choice (first second : Peg ρ α) (c : Cursor) :
    ((first.choice second).outcome c).isSome =
      ((first.outcome c).isSome || (second.outcome c).isSome) := by
  rw [outcome, Option.isSome_or]

/-- A sequence matches where its first part does and its second part does behind it. -/
theorem outcome_seq_eq_some_iff {e : Peg ρ α} {f : Peg ρ β} {c next : Cursor} {x : α × β} :
    (e.seq f).outcome c = Option.some (x, next) ↔
      ∃ mid, e.outcome c = Option.some (x.1, mid) ∧ f.outcome mid = Option.some (x.2, next) := by
  rw [outcome, Option.bind_eq_some_iff]
  constructor
  · rintro ⟨⟨a, mid⟩, ha, h⟩
    obtain ⟨⟨b, last⟩, hb, heq⟩ := Option.map_eq_some_iff.mp h
    cases heq
    exact ⟨mid, ha, hb⟩
  · rintro ⟨mid, ha, hb⟩
    refine ⟨(x.1, mid), ha, ?_⟩
    rw [hb]
    rfl

/-- Behind an expression that matches, what follows it counts. -/
theorem outcome_right_of_some {f : Peg ρ β} {e : Peg ρ α} {c mid : Cursor} {b : β}
    (h : f.outcome c = Option.some (b, mid)) : (f.right e).outcome c = e.outcome mid := by
  simp only [right, outcome, h, Option.bind_some]
  cases e.outcome mid <;> rfl

/-- What stands behind an expression matches where the expression leads to. -/
theorem outcome_right_eq_some_iff {f : Peg ρ β} {e : Peg ρ α} {c next : Cursor} {a : α} :
    (f.right e).outcome c = Option.some (a, next) ↔
      ∃ b mid, f.outcome c = Option.some (b, mid) ∧ e.outcome mid = Option.some (a, next) := by
  constructor
  · intro h
    cases hf : f.outcome c with
    | none =>
      simp only [right, outcome, hf, Option.bind_none, Option.map_none] at h
      cases h
    | some x => exact ⟨x.1, x.2, rfl, (outcome_right_of_some hf).symm.trans h⟩
  · rintro ⟨b, mid, hf, he⟩
    exact (outcome_right_of_some hf).trans he

/-- What stands before an expression matches where the expression matches behind it. -/
theorem outcome_left_eq_some_iff {e : Peg ρ α} {f : Peg ρ β} {c next : Cursor} {a : α} :
    (e.left f).outcome c = Option.some (a, next) ↔
      ∃ mid b, e.outcome c = Option.some (a, mid) ∧ f.outcome mid = Option.some (b, next) := by
  rw [left, outcome, Option.map_eq_some_iff]
  constructor
  · rintro ⟨⟨⟨a', b⟩, last⟩, h, heq⟩
    obtain ⟨rfl, rfl⟩ := Prod.mk.inj heq
    obtain ⟨mid, ha, hb⟩ := outcome_seq_eq_some_iff.mp h
    exact ⟨mid, b, ha, hb⟩
  · rintro ⟨mid, b, ha, hb⟩
    exact ⟨((a, b), next), outcome_seq_eq_some_iff.mpr ⟨mid, ha, hb⟩, rfl⟩

/-- A rule gives another value of what it names, with the stretch of text that was read. -/
theorem outcome_rule_map_eq_some_iff {e : Peg ρ α} {name : ρ} {f : α → β} {c next : Cursor}
    {x : Located β} : (rule name (e.map f)).outcome c = Option.some (x, next) ↔
      ∃ a, e.outcome c = Option.some (a, next) ∧ x = ⟨f a, c.pos, next.pos⟩ := by
  rw [outcome, outcome, Option.map_map, Option.map_eq_some_iff]
  constructor
  · rintro ⟨⟨a, last⟩, h, heq⟩
    obtain ⟨rfl, rfl⟩ := Prod.mk.inj heq
    exact ⟨a, h, rfl⟩
  · rintro ⟨a, h, rfl⟩
    exact ⟨(a, next), h, rfl⟩

/-- A part behind a look-ahead matches where the look-ahead does not stop it. -/
theorem outcome_without_right (f : Peg ρ β) (e : Peg ρ α) (c : Cursor) :
    (f.without.right e).outcome c = if (f.outcome c).isSome then none else e.outcome c := by
  split
  · next h => simp [right, outcome, h]
  · next h => exact outcome_right_of_some (by rw [outcome, if_neg h])

/-- The characters of a class are those that another expression does not begin with. -/
theorem outcome_satisfying_eq {f : Peg ρ β} {p : Char → Bool}
    (hf : ∀ a rest pos, (f.outcome ⟨a :: rest, pos⟩).isSome = !p a) (c : Cursor) :
    (satisfying p : Peg ρ Char).outcome c =
      (f.without.right (.satisfying fun _ ↦ true)).outcome c := by
  obtain ⟨rest, pos⟩ := c
  rw [outcome_without_right]
  cases rest with
  | nil => split <;> rfl
  | cons a rest =>
    rw [hf a rest pos]
    cases hp : p a <;> simp [outcome, hp]

private theorem manyOutcome_passes {one : Cursor → Option (α × Cursor)}
    (h : ∀ c a next, one c = Option.some (a, next) → ∃ w, c.Passes w next) (c : Cursor) :
    ∃ w, c.Passes w (manyOutcome one c).2 := by
  fun_induction manyOutcome one c with
  | case1 c hc => exact ⟨[], c.passes_nil⟩
  | case2 c a next hc hlt more ih =>
    obtain ⟨v, hv⟩ := h c a next hc
    obtain ⟨w, hw⟩ := ih
    exact ⟨v ++ w, hv.append hw⟩
  | case3 c a next hc hlt => exact ⟨[], c.passes_nil⟩

/-- A match leads on by a word, which is not empty if the expression reads. -/
theorem outcome_passes {e : Peg ρ α} {c next : Cursor} {a : α}
    (h : e.outcome c = Option.some (a, next)) :
    ∃ w, c.Passes w next ∧ (e.reads = true → w ≠ []) := by
  induction e generalizing c next with
  | literal text =>
    rw [outcome, Option.map_eq_some_iff] at h
    obtain ⟨rest, hr, heq⟩ := h
    cases heq
    refine ⟨text.toList, ⟨dropText?_eq_some_iff.mp hr, by rw [String.length_toList]⟩,
      fun hne hnil ↦ ?_⟩
    rw [reads, decide_eq_true_eq, ← String.length_toList, hnil] at hne
    exact hne rfl
  | satisfying p =>
    exact ⟨[_], (passes_of_outcome_satisfying h).2, by simp⟩
  | ends =>
    simp only [outcome] at h
    split at h
    · cases h
      exact ⟨[], c.passes_nil, by simp [reads]⟩
    · cases h
  | seq first second ih ih' =>
    rw [outcome, Option.bind_eq_some_iff] at h
    obtain ⟨⟨x, mid⟩, hx, h⟩ := h
    obtain ⟨⟨y, last⟩, hy, heq⟩ := Option.map_eq_some_iff.mp h
    simp only [Prod.mk.injEq] at heq
    obtain ⟨-, rfl⟩ := heq
    obtain ⟨v, hv, hvr⟩ := ih hx
    obtain ⟨w, hw, hwr⟩ := ih' hy
    refine ⟨v ++ w, hv.append hw, fun hr ↦ ?_⟩
    rw [reads, Bool.or_eq_true] at hr
    rcases hr with hr | hr
    · simp [hvr hr]
    · simp [hwr hr]
  | choice first second ih ih' =>
    rw [outcome, Option.or_eq_some_iff] at h
    rw [reads, Bool.and_eq_true]
    rcases h with h | ⟨-, h⟩
    · obtain ⟨w, hw, hr⟩ := ih h
      exact ⟨w, hw, fun hb ↦ hr hb.1⟩
    · obtain ⟨w, hw, hr⟩ := ih' h
      exact ⟨w, hw, fun hb ↦ hr hb.2⟩
  | optional e ih =>
    rw [outcome] at h
    split at h
    · next heq =>
      cases h
      obtain ⟨w, hw, -⟩ := ih heq
      exact ⟨w, hw, by simp [reads]⟩
    · cases h
      exact ⟨[], c.passes_nil, by simp [reads]⟩
  | many e ih =>
    rw [outcome] at h
    obtain ⟨w, hw⟩ := manyOutcome_passes (fun c a next h ↦ (ih h).imp fun _ hw ↦ hw.1) c
    rw [Option.some.injEq] at h
    rw [h] at hw
    exact ⟨w, hw, by simp [reads]⟩
  | without e =>
    rw [outcome] at h
    split at h
    · cases h
    · cases h
      exact ⟨[], c.passes_nil, by simp [reads]⟩
  | map f e ih =>
    rw [outcome, Option.map_eq_some_iff] at h
    obtain ⟨⟨x, mid⟩, hx, heq⟩ := h
    cases heq
    exact ih hx
  | rule name e ih =>
    rw [outcome, Option.map_eq_some_iff] at h
    obtain ⟨⟨x, mid⟩, hx, heq⟩ := h
    cases heq
    exact ih hx

/-- An expression with something before it reads if it does alone. -/
theorem reads_right (f : Peg ρ β) {e : Peg ρ α} (hr : e.reads = true) :
    (f.right e).reads = true := by
  simp [right, hr]

/-- A match of an expression that reads leaves less than there was. -/
theorem length_lt_of_outcome {e : Peg ρ α} (hr : e.reads = true) {c next : Cursor} {a : α}
    (h : e.outcome c = Option.some (a, next)) : next.rest.length < c.rest.length := by
  obtain ⟨w, hw, hne⟩ := outcome_passes h
  have hpos := List.length_pos_iff.mpr (hne hr)
  have := hw.length_eq
  omega

/-- A match leaves no more than there was. -/
theorem length_le_of_outcome {e : Peg ρ α} {c next : Cursor} {a : α}
    (h : e.outcome c = Option.some (a, next)) : next.rest.length ≤ c.rest.length := by
  obtain ⟨w, hw, -⟩ := outcome_passes h
  have := hw.length_eq
  omega

/-- A repetition always matches. -/
theorem exists_outcome_many (e : Peg ρ α) (c : Cursor) :
    ∃ as last, e.many.outcome c = Option.some (as, last) :=
  ⟨_, _, rfl⟩

/-- A repetition of something that is refused is empty. -/
theorem outcome_many_of_none {e : Peg ρ α} {c : Cursor} (h : e.outcome c = none) :
    e.many.outcome c = Option.some ([], c) := by
  rw [outcome, manyOutcome, h]

/-- A repetition of something that reads begins with its first match. -/
theorem outcome_many_of_some {e : Peg ρ α} (hr : e.reads = true) {c next last : Cursor} {a : α}
    {as : List α} (h : e.outcome c = Option.some (a, next))
    (hm : e.many.outcome next = Option.some (as, last)) :
    e.many.outcome c = Option.some (a :: as, last) := by
  rw [outcome, Option.some.injEq] at hm
  rw [outcome, manyOutcome, h]
  simp only [if_pos (length_lt_of_outcome hr h), hm]

/-- Induction over the rounds of a repetition. -/
theorem many_induction {e : Peg ρ α} (hr : e.reads = true) {motive : Cursor → Prop}
    (stop : ∀ c, e.outcome c = none → motive c)
    (again : ∀ c a next, e.outcome c = Option.some (a, next) → motive next → motive c)
    (c : Cursor) : motive c := by
  induction hn : c.rest.length using Nat.strongRecOn generalizing c with
  | ind n ih =>
    cases hc : e.outcome c with
    | none => exact stop c hc
    | some x => exact again c x.1 x.2 hc (ih _ (hn ▸ length_lt_of_outcome hr hc) x.2 rfl)

/-- A repetition stops where its expression is refused, and at a place like those where its rounds
end. -/
theorem outcome_many_last {e : Peg ρ α} (hr : e.reads = true) {P : Cursor → Prop}
    (h : ∀ c a next, e.outcome c = Option.some (a, next) → P next) {c last : Cursor} {as : List α}
    (hc : P c) (hm : e.many.outcome c = Option.some (as, last)) :
    P last ∧ e.outcome last = none := by
  induction c using many_induction hr generalizing as with
  | stop c ho =>
    rw [outcome_many_of_none ho, Option.some.injEq, Prod.mk.injEq] at hm
    obtain ⟨-, rfl⟩ := hm
    exact ⟨hc, ho⟩
  | again c a next ho ih =>
    obtain ⟨as', last', hm'⟩ := exists_outcome_many e next
    rw [outcome_many_of_some hr ho hm', Option.some.injEq, Prod.mk.injEq] at hm
    obtain ⟨-, rfl⟩ := hm
    exact ih (h c a next ho) hm'

/-- What no round of a repetition changes is the same where it ends. -/
theorem eq_of_outcome_many {γ : Type} {e : Peg ρ α} (hr : e.reads = true) {f : Cursor → γ}
    (h : ∀ c a next, e.outcome c = Option.some (a, next) → f next = f c) {c last : Cursor}
    {as : List α} (hm : e.many.outcome c = Option.some (as, last)) : f last = f c := by
  induction c using many_induction hr generalizing as with
  | stop c hc =>
    rw [outcome_many_of_none hc, Option.some.injEq, Prod.mk.injEq] at hm
    rw [hm.2]
  | again c a next hc ih =>
    obtain ⟨as', last', hm'⟩ := exists_outcome_many e next
    rw [outcome_many_of_some hr hc hm', Option.some.injEq, Prod.mk.injEq] at hm
    obtain ⟨-, rfl⟩ := hm
    rw [ih hm', h c a next hc]

/-- A repetition of something that reads its value as one character reads its values. -/
theorem passes_of_outcome_many {e : Peg ρ Char} (hr : e.reads = true)
    (h : ∀ c a next, e.outcome c = Option.some (a, next) → c.Passes [a] next) {c last : Cursor}
    {as : List Char} (hm : e.many.outcome c = Option.some (as, last)) : c.Passes as last := by
  induction c using many_induction hr generalizing as last with
  | stop c hc =>
    rw [outcome_many_of_none hc, Option.some.injEq, Prod.mk.injEq] at hm
    obtain ⟨rfl, rfl⟩ := hm
    exact c.passes_nil
  | again c a next hc ih =>
    obtain ⟨as', last', hm'⟩ := exists_outcome_many e next
    rw [outcome_many_of_some hr hc hm', Option.some.injEq, Prod.mk.injEq] at hm
    obtain ⟨rfl, rfl⟩ := hm
    exact (h c a next hc).append (ih hm')

-- The round that reads the first character of what is read begins where that character stands.
private theorem of_outcome_cons {e : Peg ρ Char} (hr : e.reads = true) {Q : List Char → Prop}
    (h : ∀ c a next, e.outcome c = Option.some (a, next) → c.Passes [a] next ∧ Q c.rest)
    {c next last : Cursor} {a : Char} {as : List Char} (hc : e.outcome c = Option.some (a, next))
    (hm : e.many.outcome next = Option.some (as, last)) : Q (a :: as ++ last.rest) := by
  obtain ⟨hone, hQ⟩ := h c a next hc
  have hmore := passes_of_outcome_many hr (fun c a next hc ↦ (h c a next hc).1) hm
  rwa [hone.rest_eq, hmore.rest_eq] at hQ

private theorem forall_suffix_of_outcome_many {e : Peg ρ Char} (hr : e.reads = true)
    {Q : List Char → Prop}
    (h : ∀ c a next, e.outcome c = Option.some (a, next) → c.Passes [a] next ∧ Q c.rest)
    {c last : Cursor} {as : List Char} (hm : e.many.outcome c = Option.some (as, last)) :
    ∀ v, v ≠ [] → v <:+ as → Q (v ++ last.rest) := by
  intro v hne hv
  induction c using many_induction hr generalizing last as with
  | stop c hc =>
    rw [outcome_many_of_none hc, Option.some.injEq, Prod.mk.injEq] at hm
    obtain ⟨rfl, rfl⟩ := hm
    exact absurd (List.suffix_nil.mp hv) hne
  | again c a next hc ih =>
    obtain ⟨as', last', hm'⟩ := exists_outcome_many e next
    rw [outcome_many_of_some hr hc hm', Option.some.injEq, Prod.mk.injEq] at hm
    obtain ⟨rfl, rfl⟩ := hm
    rcases List.suffix_cons_iff.mp hv with rfl | hv
    · exact of_outcome_cons hr h hc hm'
    · exact ih hm' hv

/-- If every character is read where the text behind it has a property, then what was read has the
property from each of its characters on. -/
theorem forall_suffix_of_outcome_some {e : Peg ρ Char} (hr : e.reads = true) {Q : List Char → Prop}
    (h : ∀ c a next, e.outcome c = Option.some (a, next) → c.Passes [a] next ∧ Q c.rest)
    {c last : Cursor} {as : List Char} (hs : e.some.outcome c = Option.some (as, last)) :
    ∀ v, v ≠ [] → v <:+ as → Q (v ++ last.rest) := by
  intro v hne hv
  simp only [some, outcome, Option.map_eq_some_iff, Option.bind_eq_some_iff] at hs
  obtain ⟨⟨⟨a, as'⟩, last'⟩, ⟨⟨a', next⟩, hc, ⟨as'', last''⟩, hm, heq⟩, heq'⟩ := hs
  simp only [Prod.mk.injEq] at heq heq'
  obtain ⟨⟨rfl, rfl⟩, rfl⟩ := heq
  obtain ⟨rfl, rfl⟩ := heq'
  have hm' : e.many.outcome next = Option.some (as'', last'') := by
    rw [outcome]
    exact hm
  rcases List.suffix_cons_iff.mp hv with rfl | hv
  · exact of_outcome_cons hr h hc hm'
  · exact forall_suffix_of_outcome_many hr h hm' v hne hv

/-! ### Scans -/

/-- The reply with an outcome. -/
def Reply.ofOutcome (m : Misses ρ) : Option (α × Cursor) → Reply ρ α
  | none => .refused m
  | Option.some (a, next) => .matched a next m

/-- The reply with another value. -/
def Reply.map (f : α → β) : Reply ρ α → Reply ρ β
  | .matched a next m => .matched (f a) next m
  | .refused m => .refused m

section

variable {e : Peg ρ α} {f : Peg ρ β} {rounds : Nat} {c next last : Cursor} {m m' : Misses ρ} {b : β}

/-- Another value makes no difference to a scan. -/
theorem scan_map (g : α → β) : (e.map g).scan rounds c m = (e.scan rounds c m).map g := by
  rw [scan]
  cases e.scan rounds c m <;> rfl

/-- Behind a first part that matches, the second part counts. -/
theorem scan_seq_of_matched (h : f.scan rounds c m = .matched b next m') :
    (f.seq e).scan rounds c m = (e.scan rounds next m').map (Prod.mk b) := by
  simp only [scan, h]
  cases e.scan rounds next m' <;> rfl

/-- Behind a part that matches, what follows it counts. -/
theorem scan_right_of_matched (h : f.scan rounds c m = .matched b next m') :
    (f.right e).scan rounds c m = e.scan rounds next m' := by
  rw [right, scan_map, scan_seq_of_matched h]
  cases e.scan rounds next m' <;> rfl

/-- A sequence that matches matches in both parts. -/
theorem exists_of_scan_seq {x : β × α} (h : (f.seq e).scan rounds c m = .matched x last m') :
    ∃ next m₁, f.scan rounds c m = .matched x.1 next m₁ ∧
      e.scan rounds next m₁ = .matched x.2 last m' := by
  rw [scan] at h
  cases hf : f.scan rounds c m with
  | refused m₁ =>
    rw [hf] at h
    cases h
  | matched b next m₁ =>
    simp only [hf] at h
    cases he : e.scan rounds next m₁ with
    | refused m₂ =>
      rw [he] at h
      cases h
    | matched a last' m₂ =>
      rw [he] at h
      cases h
      exact ⟨next, m₁, rfl, he⟩

/-- What follows a part matches only if that part does. -/
theorem exists_of_scan_right {a : α} (h : (f.right e).scan rounds c m = .matched a last m') :
    ∃ b next m₁, f.scan rounds c m = .matched b next m₁ ∧
      e.scan rounds next m₁ = .matched a last m' := by
  rw [right, scan_map] at h
  cases hs : (f.seq e).scan rounds c m with
  | refused m₁ =>
    rw [hs] at h
    cases h
  | matched x last' m₁ =>
    rw [hs] at h
    cases h
    obtain ⟨next, m₂, hf, he⟩ := exists_of_scan_seq hs
    exact ⟨x.1, next, m₂, hf, he⟩

end

private theorem scanMany_eq {e : Peg ρ α} {one : Cursor → Misses ρ → Reply ρ α}
    (hr : e.reads = true) {bound : Nat}
    (hone : ∀ c : Cursor, c.rest.length < bound →
      ∀ m, ∃ m', one c m = Reply.ofOutcome m' (e.outcome c))
    {rounds : Nat} {c : Cursor} (hb : c.rest.length < bound) (hc : c.rest.length < rounds)
    (held : List α) (m : Misses ρ) : ∃ m', scanMany one rounds held c m =
      .matched (held.reverse ++ (manyOutcome e.outcome c).1) (manyOutcome e.outcome c).2 m' := by
  induction rounds generalizing held c m with
  | zero => omega
  | succ rounds ih =>
    obtain ⟨m', hm⟩ := hone c hb m
    rw [scanMany, hm, manyOutcome]
    cases ho : e.outcome c with
    | none => exact ⟨m', by simp [Reply.ofOutcome]⟩
    | some x =>
      have hlt := length_lt_of_outcome hr ho
      obtain ⟨m'', hm''⟩ := ih (c := x.2) (by omega) (by omega) (x.1 :: held) m'
      refine ⟨m'', ?_⟩
      simp only [Reply.ofOutcome, if_pos hlt, hm'', List.reverse_cons, List.append_assoc,
        List.singleton_append]

/-- A scan with rounds enough comes to the outcome. -/
theorem scan_eq_outcome {e : Peg ρ α} (hf : e.founded = true) {rounds : Nat} {c : Cursor}
    (hc : c.rest.length < rounds) (m : Misses ρ) :
    ∃ m', e.scan rounds c m = Reply.ofOutcome m' (e.outcome c) := by
  induction e generalizing c m with
  | literal text =>
    refine ⟨m, ?_⟩
    rw [scan, outcome]
    cases dropText? text.toList c.rest <;> rfl
  | satisfying p =>
    refine ⟨m, ?_⟩
    rw [scan, outcome]
    obtain ⟨rest, pos⟩ := c
    cases rest with
    | nil => rfl
    | cons x rest =>
      simp only
      split <;> rfl
  | ends =>
    refine ⟨m, ?_⟩
    obtain ⟨rest, pos⟩ := c
    cases rest <;> rfl
  | seq first second ih ih' =>
    rw [founded, Bool.and_eq_true] at hf
    obtain ⟨m', hm⟩ := ih hf.1 hc m
    rw [scan, outcome, hm]
    cases hx : first.outcome c with
    | none => exact ⟨m', rfl⟩
    | some x =>
      have hle := length_le_of_outcome hx
      obtain ⟨m'', hm''⟩ := ih' hf.2 (c := x.2) (by omega) m'
      simp only [Reply.ofOutcome, hm'', Option.bind_some]
      cases hy : second.outcome x.2 with
      | none => exact ⟨m'', rfl⟩
      | some y => exact ⟨m'', rfl⟩
  | choice first second ih ih' =>
    rw [founded, Bool.and_eq_true] at hf
    obtain ⟨m', hm⟩ := ih hf.1 hc m
    rw [scan, outcome, hm]
    cases hx : first.outcome c with
    | none =>
      obtain ⟨m'', hm''⟩ := ih' hf.2 hc m'
      exact ⟨m'', hm''⟩
    | some x => exact ⟨m', rfl⟩
  | optional e ih =>
    obtain ⟨m', hm⟩ := ih hf hc m
    rw [scan, outcome, hm]
    cases hx : e.outcome c with
    | none => exact ⟨m', rfl⟩
    | some x => exact ⟨m', rfl⟩
  | many e ih =>
    rw [founded, Bool.and_eq_true] at hf
    obtain ⟨m', hm⟩ := scanMany_eq hf.1 (fun c hc m ↦ ih hf.2 hc m) hc hc [] m
    exact ⟨m', hm⟩
  | without e ih =>
    obtain ⟨m', hm⟩ := ih hf hc m
    refine ⟨m, ?_⟩
    rw [scan, outcome, hm]
    cases hx : e.outcome c with
    | none => rfl
    | some x => rfl
  | map f e ih =>
    obtain ⟨m', hm⟩ := ih hf hc m
    refine ⟨m', ?_⟩
    rw [scan, outcome, hm]
    cases hx : e.outcome c with
    | none => rfl
    | some x => rfl
  | rule name e ih =>
    obtain ⟨m', hm⟩ := ih hf hc m
    rw [scan, outcome, hm]
    cases hx : e.outcome c with
    | none => exact ⟨_, rfl⟩
    | some x => exact ⟨m', rfl⟩

/-- What a scan with rounds enough matches is the outcome. -/
theorem outcome_of_scan_matched {e : Peg ρ α} (hf : e.founded = true) {rounds : Nat}
    {c next : Cursor} (hc : c.rest.length < rounds) {m m' : Misses ρ} {a : α}
    (h : e.scan rounds c m = .matched a next m') : e.outcome c = Option.some (a, next) := by
  obtain ⟨m'', hm⟩ := scan_eq_outcome hf hc m
  rw [h] at hm
  cases ho : e.outcome c with
  | none =>
    rw [ho] at hm
    cases hm
  | some x =>
    rw [ho] at hm
    cases hm
    rfl

/-- A founded expression gives a value exactly if it matches with that value. -/
theorem read_eq_ok_iff {e : Peg ρ α} (hf : e.founded = true) {text : List Char} {a : α} :
    e.read text = .ok a ↔ ∃ next, e.outcome (Cursor.ofText text) = Option.some (a, next) := by
  obtain ⟨m, hm⟩ := scan_eq_outcome hf (c := Cursor.ofText text) (Nat.lt_succ_self _) Misses.none
  rw [read, show text.length + 1 = (Cursor.ofText text).rest.length + 1 from rfl, hm]
  cases ho : e.outcome (Cursor.ofText text) with
  | none => simp [Reply.ofOutcome]
  | some x => simp [Reply.ofOutcome, Prod.ext_iff]

/-- A founded expression gives misses exactly if it is refused. -/
theorem read_eq_error_iff {e : Peg ρ α} (hf : e.founded = true) {text : List Char} :
    (∃ m, e.read text = .error m) ↔ e.outcome (Cursor.ofText text) = none := by
  obtain ⟨m, hm⟩ := scan_eq_outcome hf (c := Cursor.ofText text) (Nat.lt_succ_self _) Misses.none
  rw [read, show text.length + 1 = (Cursor.ofText text).rest.length + 1 from rfl, hm]
  cases ho : e.outcome (Cursor.ofText text) with
  | none => simp [Reply.ofOutcome]
  | some x => simp [Reply.ofOutcome]

end TapeMachine.Peg
