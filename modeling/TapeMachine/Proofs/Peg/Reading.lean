import TapeMachine.Proofs.Peg.Outcome

/-!
# Reading words

Which words an expression reads, wherever they stand: before a given rest it takes a word, and it
refuses the texts that it does not match. There is one lemma for each way to build expressions. What
follows a word matters, because repetitions are greedy and go on into it if they can.
-/

namespace TapeMachine.Peg

variable {ρ α β γ ι : Type}

/-- Before `rest` the expression reads the word and gives a value with the property. -/
def Takes (e : Peg ρ α) (w rest : List Char) (V : α → Prop) : Prop :=
  ∀ pos, ∃ a, e.outcome ⟨w ++ rest, pos⟩ = Option.some (a, ⟨rest, pos + w.length⟩) ∧ V a

/-- The expression does not match the beginning of the text. -/
def Refuses (e : Peg ρ α) (text : List Char) : Prop := ∀ pos, e.outcome ⟨text, pos⟩ = none

variable {e e' : Peg ρ α} {f : Peg ρ β} {u v w rest text : List Char} {V V' : α → Prop}
  {W : β → Prop}

/-! ### Refusals -/

namespace Refuses

/-- What reads a character is refused at the end of the text. -/
theorem nil (hr : e.reads = true) : e.Refuses [] := by
  intro pos
  cases he : e.outcome ⟨[], pos⟩ with
  | none => rfl
  | some x =>
    obtain ⟨w, hw, hne⟩ := outcome_passes he
    exact absurd (List.append_eq_nil_iff.mp hw.rest_eq.symm).1 (hne hr)

/-- A text that is no beginning is refused. -/
theorem literal {s : String} (h : ¬s.toList <+: text) :
    (Peg.literal s : Peg ρ Unit).Refuses text := by
  intro pos
  rw [outcome, Option.map_eq_none_iff]
  exact dropText?_eq_none_iff.mpr h

/-- A class refuses a text that begins with none of its characters. -/
theorem satisfying {p : Char → Bool} (h : ∀ a, text.head? = Option.some a → p a = false) :
    (Peg.satisfying p : Peg ρ Char).Refuses text := by
  intro pos
  cases text with
  | nil => rfl
  | cons a text =>
    have ha : p a = false := h a rfl
    simp [outcome, ha]

/-- A sequence is refused with its first part. -/
theorem seq (h : e.Refuses text) (f : Peg ρ β) : (e.seq f).Refuses text := by
  intro pos
  rw [outcome, h pos, Option.bind_none]

/-- A sequence is refused with its second part. -/
theorem seq_of_takes (h : e.Takes w rest V) (h' : f.Refuses rest) :
    (e.seq f).Refuses (w ++ rest) := by
  intro pos
  obtain ⟨a, ha, -⟩ := h pos
  rw [outcome, ha, Option.bind_some, h', Option.map_none]

/-- A choice is refused with both. -/
theorem choice (h : e.Refuses text) (h' : e'.Refuses text) : (e.choice e').Refuses text := by
  intro pos
  rw [outcome, h pos, h' pos, Option.or_none]

/-- Other values make no difference. -/
theorem map {g : α → β} (h : e.Refuses text) : (e.map g).Refuses text := by
  intro pos
  rw [outcome, h pos, Option.map_none]

/-- A rule is refused with its body. -/
theorem rule {name : ρ} (h : e.Refuses text) : (Peg.rule name e).Refuses text := by
  intro pos
  rw [outcome, h pos, Option.map_none]

/-- What stands behind a refusal does not matter. -/
theorem right (h : e.Refuses text) (f : Peg ρ β) : (e.right f).Refuses text := (h.seq f).map

/-- A part behind a word is refused with it. -/
theorem right_of_takes (h : e.Takes w rest V) (h' : f.Refuses rest) :
    (e.right f).Refuses (w ++ rest) :=
  (seq_of_takes h h').map

/-- A look-ahead makes no more match. -/
theorem without_right (h : e.Refuses text) (f : Peg ρ β) : (f.without.right e).Refuses text := by
  intro pos
  rw [outcome_without_right, h pos, ite_self]

end Refuses

/-! ### Words -/

namespace Takes

/-- Less may be said about the value. -/
theorem mono (h : e.Takes w rest V) (hV : ∀ a, V a → V' a) : e.Takes w rest V' := by
  intro pos
  obtain ⟨a, ha, hv⟩ := h pos
  exact ⟨a, ha, hV a hv⟩

/-- A text reads itself. -/
theorem literal (s : String) (rest : List Char) :
    (Peg.literal s : Peg ρ Unit).Takes s.toList rest fun _ ↦ True := by
  intro pos
  refine ⟨(), ?_, trivial⟩
  rw [outcome, dropText?_eq_some_iff.mpr rfl, Option.map_some, String.length_toList]

/-- A class reads each of its characters. -/
theorem satisfying {p : Char → Bool} {a : Char} (h : p a = true) (rest : List Char) :
    (Peg.satisfying p : Peg ρ Char).Takes [a] rest fun b ↦ b = a := by
  intro pos
  refine ⟨a, ?_, rfl⟩
  simp [outcome, h]

/-- The end of the text is read there. -/
theorem ends : (Peg.ends : Peg ρ Unit).Takes [] [] fun _ ↦ True := fun _ ↦ ⟨(), rfl, trivial⟩

/-- Words that are read one after another are read by a sequence. -/
theorem seq (h : e.Takes v (w ++ rest) V) (h' : f.Takes w rest W) :
    (e.seq f).Takes (v ++ w) rest fun x ↦ V x.1 ∧ W x.2 := by
  intro pos
  obtain ⟨a, ha, hv⟩ := h pos
  obtain ⟨b, hb, hw⟩ := h' (pos + v.length)
  refine ⟨(a, b), ?_, hv, hw⟩
  rw [outcome, List.append_assoc, ha, Option.bind_some, hb, Option.map_some, List.length_append,
    Nat.add_assoc]

/-- The first expression of a choice reads its words. -/
theorem choice (h : e.Takes w rest V) (e' : Peg ρ α) : (e.choice e').Takes w rest V := by
  intro pos
  obtain ⟨a, ha, hv⟩ := h pos
  refine ⟨a, ?_, hv⟩
  rw [outcome, ha, Option.some_or]

/-- The second expression of a choice reads the words that the first refuses. -/
theorem choice_of_refuses (h : e.Refuses (w ++ rest)) (h' : e'.Takes w rest V) :
    (e.choice e').Takes w rest V := by
  intro pos
  obtain ⟨a, ha, hv⟩ := h' pos
  refine ⟨a, ?_, hv⟩
  rw [outcome, h pos, ha, Option.none_or]

/-- An option reads the words of its expression. -/
theorem optional (h : e.Takes w rest V) :
    e.optional.Takes w rest fun o ↦ ∃ a, o = Option.some a ∧ V a := by
  intro pos
  obtain ⟨a, ha, hv⟩ := h pos
  refine ⟨Option.some a, ?_, a, rfl, hv⟩
  rw [outcome, ha]

/-- An option reads nothing where its expression is refused. -/
theorem optional_of_refuses (h : e.Refuses rest) : e.optional.Takes [] rest fun o ↦ o = none := by
  intro pos
  refine ⟨none, ?_, rfl⟩
  rw [List.nil_append, outcome, h pos]
  rfl

/-- The value may be another. -/
theorem map {g : α → β} (h : e.Takes w rest V) (hW : ∀ a, V a → W (g a)) :
    (e.map g).Takes w rest W := by
  intro pos
  obtain ⟨a, ha, hv⟩ := h pos
  refine ⟨g a, ?_, hW a hv⟩
  rw [outcome, ha, Option.map_some]

/-- The second of two values counts. -/
theorem right (h : e.Takes v (w ++ rest) V) (h' : f.Takes w rest W) :
    (e.right f).Takes (v ++ w) rest W :=
  (h.seq h').map fun _ hx ↦ hx.2

/-- The first of two values counts. -/
theorem left (h : e.Takes v (w ++ rest) V) (h' : f.Takes w rest W) :
    (e.left f).Takes (v ++ w) rest V :=
  (h.seq h').map fun _ hx ↦ hx.1

/-- A rule reads the words of its body. -/
theorem rule {name : ρ} (h : e.Takes w rest V) :
    (Peg.rule name e).Takes w rest fun x ↦ V x.value := by
  intro pos
  obtain ⟨a, ha, hv⟩ := h pos
  refine ⟨⟨a, pos, pos + w.length⟩, ?_, hv⟩
  rw [outcome, ha, Option.map_some]

/-- An expression behind a look-ahead reads the words that do not stop it. -/
theorem without (h : f.Refuses (w ++ rest)) (h' : e.Takes w rest V) :
    (f.without.right e).Takes w rest V := by
  intro pos
  obtain ⟨a, ha, hv⟩ := h' pos
  refine ⟨a, ?_, hv⟩
  rw [outcome_without_right, h pos, ha]
  rfl

/-- A repetition reads nothing where its expression is refused. -/
theorem many_nil (h : e.Refuses rest) : e.many.Takes [] rest fun as ↦ as = [] := by
  intro pos
  exact ⟨[], outcome_many_of_none (h pos), rfl⟩

/-- A repetition of something that reads begins with a word of its expression. -/
theorem many_cons (hr : e.reads = true) {Vs : List α → Prop} (h : e.Takes v (w ++ rest) V)
    (h' : e.many.Takes w rest Vs) :
    e.many.Takes (v ++ w) rest fun as ↦ ∃ b bs, as = b :: bs ∧ V b ∧ Vs bs := by
  intro pos
  obtain ⟨a, ha, hv⟩ := h pos
  obtain ⟨as, has, hvs⟩ := h' (pos + v.length)
  refine ⟨a :: as, ?_, a, as, rfl, hv, hvs⟩
  rw [List.append_assoc, outcome_many_of_some hr ha has, List.length_append, Nat.add_assoc]

/-- A repetition reads the words of items one after another, if its expression reads each of them
before the words of those that follow. -/
theorem many (hr : e.reads = true) {items : List ι} {word : ι → List Char} {g : α → γ} {g' : ι → γ}
    (h : ∀ i is, i :: is <:+ items →
      e.Takes (word i) (is.flatMap word ++ rest) fun a ↦ g a = g' i)
    (hstop : e.Refuses rest) :
    e.many.Takes (items.flatMap word) rest fun as ↦ as.map g = items.map g' := by
  induction items with
  | nil => exact (many_nil hstop).mono fun as has ↦ by rw [has]; rfl
  | cons i is ih =>
    have hhead := h i is (List.suffix_refl _)
    have htail := ih fun j js hj ↦ h j js (hj.trans (List.suffix_cons i is))
    rw [List.flatMap_cons]
    apply (many_cons hr hhead htail).mono
    rintro _ ⟨a, as, rfl, ha, has⟩
    rw [List.map_cons, List.map_cons, ha, has]

/-- A repetition of a class reads the characters that are in it. -/
theorem many_chars {e : Peg ρ Char} (hr : e.reads = true) {cs : List Char}
    (h : ∀ c ds, c :: ds <:+ cs → e.Takes [c] (ds ++ rest) fun a ↦ a = c) (hstop : e.Refuses rest) :
    e.many.Takes cs rest fun as ↦ as = cs := by
  have hword : ∀ ds : List Char, ds.flatMap (fun c ↦ [c]) = ds := List.flatMap_singleton'
  have hmany : e.many.Takes (cs.flatMap fun c ↦ [c]) rest fun as ↦ as.map id = cs.map id := by
    refine many hr (fun c ds hc ↦ ?_) hstop
    rw [hword]
    exact h c ds hc
  rw [hword] at hmany
  exact hmany.mono fun as has ↦ by simpa using has

/-- A repetition with one round at least reads the characters of a word that is not empty. -/
theorem some_chars {e : Peg ρ Char} (hr : e.reads = true) {cs : List Char} (hne : cs ≠ [])
    (h : ∀ c ds, c :: ds <:+ cs → e.Takes [c] (ds ++ rest) fun a ↦ a = c) (hstop : e.Refuses rest) :
    e.some.Takes cs rest fun as ↦ as = cs := by
  obtain ⟨c, ds, rfl⟩ := List.exists_cons_of_ne_nil hne
  have hhead := h c ds (List.suffix_refl _)
  have htail := many_chars hr (fun d es hd ↦ h d es (hd.trans (List.suffix_cons c ds))) hstop
  apply (hhead.seq htail).map
  rintro ⟨a, as⟩ ⟨rfl, rfl⟩
  rfl

end Takes

/-- A repetition of a class reads up to the first character that is not in it. -/
theorem outcome_many_satisfying (p : Char → Bool) (c : Cursor) :
    (satisfying p : Peg ρ Char).many.outcome c = Option.some (c.rest.takeWhile p,
      ⟨c.rest.dropWhile p, c.pos + (c.rest.takeWhile p).length⟩) := by
  have htakes : (satisfying p : Peg ρ Char).many.Takes (c.rest.takeWhile p) (c.rest.dropWhile p)
      fun as ↦ as = c.rest.takeWhile p := by
    refine .many_chars rfl (fun a ds hs ↦ .satisfying ?_ _) (.satisfying fun a ha ↦ ?_)
    · exact List.all_eq_true.mp List.all_takeWhile a (hs.subset List.mem_cons_self)
    · have hnot := List.head?_dropWhile_not p c.rest
      rw [ha] at hnot
      simpa using hnot
  obtain ⟨as, has, rfl⟩ := htakes c.pos
  rwa [List.takeWhile_append_dropWhile] at has

end TapeMachine.Peg
