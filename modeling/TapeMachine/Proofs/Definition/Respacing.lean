import TapeMachine.Proofs.Definition.Layout
import TapeMachine.Proofs.Peg.Lockstep

/-!
# Texts that differ in their layout

A text is `Respaced` as another if it goes on in the same way, with more layout at the ends and the
beginnings of its lines. Taking the layout off the start of both keeps them so (`respaced_skip`),
and the words of the grammar are read alike in both.
-/

namespace TapeMachine.Definition

open Peg (Cursor Takes Refuses Tracks InStep never)

/-- A line that says nothing: blanks, and maybe a comment behind them. -/
inductive Filler : List Char → Prop
  | blanks {w : List Char} (h : ∀ c ∈ w, isSpace c = true) : Filler w
  | comment {w text : List Char} (h : ∀ c ∈ w, isSpace c = true)
      (ht : ∀ c ∈ text, Grammar.isBreak c = false) : Filler (w ++ '/' :: '/' :: text)

/-- What may be added at the end of a line: blanks, and behind a blank a comment. -/
structure LineTail (tail : List Char) : Prop where
  filler : Filler tail
  head : ∀ c, tail.head? = some c → isSpace c = true

/-- The line breaks of a file that is edited: a line feed, or a carriage return and a line feed. -/
def IsLineBreak (sep : List Char) : Prop := sep = ['\n'] ∨ sep = ['\r', '\n']

/-- Layout at the end of which no comment is open. -/
def Clear (w : List Char) : Prop := ∀ rest, skipLayout (w ++ rest) = skipLayout rest

/-- The second text is the first one with other layout: behind the end there may be layout, and
where the first text has a line feed, the second may end its line in another way, and may have more
layout before the next line goes on. -/
inductive Respaced : List Char → List Char → Prop
  | stop {t : List Char} (hhead : ∀ c, t.head? = some c → isLayout c = true)
      (hall : skipLayout t = []) : Respaced [] t
  | char {c : Char} {s t : List Char} (hc : Grammar.isBreak c = false) (h : Respaced s t) :
      Respaced (c :: s) (c :: t)
  | line {tail sep more s t : List Char} (ht : LineTail tail) (hsep : IsLineBreak sep)
      (hm : Clear more) (h : Respaced s t) : Respaced ('\n' :: s) (tail ++ (sep ++ (more ++ t)))

variable {s t tail sep rest : List Char} {passed : Char → Bool} {α β : Type}

/-! ### Taking layout off -/

theorem IsLineBreak.exists_cons (h : IsLineBreak sep) :
    ∃ c cs, sep = c :: cs ∧ Grammar.isBreak c = true := by
  rcases h with rfl | rfl
  · exact ⟨'\n', [], rfl, rfl⟩
  · exact ⟨'\r', ['\n'], rfl, rfl⟩

theorem IsLineBreak.isBreak_of_head (h : IsLineBreak sep) {c : Char}
    (hc : (sep ++ rest).head? = some c) : Grammar.isBreak c = true := by
  obtain ⟨d, ds, rfl, hd⟩ := h.exists_cons
  obtain rfl := Option.some.inj hc
  exact hd

theorem IsLineBreak.isLayout (h : IsLineBreak sep) {c : Char} (hc : c ∈ sep) :
    Definition.isLayout c = true := by
  rcases h with rfl | rfl
  · rw [List.mem_singleton.mp hc]
    rfl
  · rcases List.mem_pair.mp hc with rfl | rfl <;> rfl

theorem Filler.isBreak (h : Filler tail) {c : Char} (hc : c ∈ tail) :
    Grammar.isBreak c = false := by
  cases h with
  | blanks h => exact isBreak_of_isSpace (h c hc)
  | comment h ht =>
    rcases List.mem_append.mp hc with hc | hc
    · exact isBreak_of_isSpace (h c hc)
    · rcases List.mem_cons.mp hc with rfl | hc
      · rfl
      · rcases List.mem_cons.mp hc with rfl | hc
        · rfl
        · exact ht c hc

/-- A line that says nothing is skipped up to its end. -/
theorem skip_filler (h : Filler tail) (hs : ∀ c, isSpace c = true → passed c = true)
    (hslash : passed '/' = false) (hr : ∀ c, rest.head? = some c → Grammar.isBreak c = true)
    (inComment : Bool) :
    skip passed inComment (tail ++ rest) = skip passed false rest := by
  cases inComment with
  | true =>
    rw [skip_comment_append passed fun c ↦ h.isBreak, skip_eq_of_endsLine hr]
  | false =>
    cases h with
    | blanks h => exact skip_append passed (fun c hc ↦ hs c (h c hc)) rest
    | comment h ht =>
      rw [List.append_assoc, skip_append passed fun c hc ↦ hs c (h c hc), List.cons_append,
        List.cons_append, skip_slashes hslash, skip_comment_append passed ht,
        skip_eq_of_endsLine hr]

/-- If nothing but layout is left, nothing but layout is left within a comment. -/
theorem skip_comment_eq_nil (h : skipLayout t = []) : skip isLayout true t = [] := by
  induction t with
  | nil => rw [skip]
  | cons c cs ih =>
    rw [skipLayout, skip] at h
    rw [skip]
    split
    · next hb =>
      rw [if_pos (isLayout_of_isBreak hb)] at h
      rw [if_pos (isLayout_of_isBreak hb), h]
    · split at h
      · exact ih h
      · split at h
        · exact h
        · cases h

/-- Where no gap begins, and nothing but layout is left, the line ends. -/
theorem isLayout_of_settled (h : Settled passed t) (hall : skipLayout t = []) (c : Char)
    (hc : t.head? = some c) : isLayout c = true := by
  obtain ⟨cs, rfl⟩ := List.head?_eq_some_iff.mp hc
  by_contra hl
  rw [skipLayout, skip, if_neg hl, if_neg (h c cs rfl).2] at hall
  cases hall

/-- What stands for the end of a line begins with layout. -/
theorem LineTail.isLayout_of_head (h : LineTail tail) (hsep : IsLineBreak sep) {c : Char}
    (hc : (tail ++ (sep ++ rest)).head? = some c) : isLayout c = true := by
  cases tail with
  | nil =>
    obtain ⟨b, bs, rfl, hb⟩ := hsep.exists_cons
    rw [← Option.some.inj hc]
    exact isLayout_of_isBreak hb
  | cons d tail => exact isLayout_of_isSpace (h.head c hc)

namespace Respaced

/-- A character that is no layout stands at both places or at none. -/
theorem head?_eq_some_iff (h : Respaced s t) {a : Char} (ha : isLayout a = false) :
    s.head? = some a ↔ t.head? = some a := by
  cases h with
  | stop hhead hall =>
    constructor
    · intro h
      cases h
    · intro h
      rw [hhead a h] at ha
      cases ha
  | char hc h => exact Iff.rfl
  | line ht hsep hm h =>
    constructor
    · intro h
      rw [← Option.some.inj h] at ha
      cases ha
    · intro h
      rw [ht.isLayout_of_head hsep h] at ha
      cases ha

/-- Behind a character that is no layout the texts go on alike. -/
theorem exists_of_head (h : Respaced s t) {a : Char} (ha : isLayout a = false)
    (hs : s.head? = some a) : ∃ s' t', s = a :: s' ∧ t = a :: t' ∧ Respaced s' t' := by
  cases h with
  | stop hhead hall => cases hs
  | char hc h =>
    obtain rfl := Option.some.inj hs
    exact ⟨_, _, rfl, rfl, h⟩
  | line ht hsep hm h =>
    rw [← Option.some.inj hs] at ha
    cases ha

/-- Where the first text ends its line, the second has blanks and then ends it as well, or begins a
comment behind a blank. -/
theorem exists_of_endsLine (h : Respaced s t) (hs : EndsLine s) :
    ∃ w rest, t = w ++ rest ∧ (∀ c ∈ w, isSpace c = true) ∧
      ((∀ c, rest.head? = some c → Grammar.isBreak c = true) ∨
        w ≠ [] ∧ ∃ text, rest = '/' :: '/' :: text) := by
  cases h with
  | @stop t hhead hall =>
    refine ⟨t.takeWhile isSpace, t.dropWhile isSpace, List.takeWhile_append_dropWhile.symm,
      fun c ↦ List.all_eq_true.mp List.all_takeWhile c, ?_⟩
    have hrest : skipLayout (t.dropWhile isSpace) = [] := by
      have hskip := skip_append isLayout (w := t.takeWhile isSpace)
        (fun c hc ↦ isLayout_of_isSpace (List.all_eq_true.mp List.all_takeWhile c hc))
        (t.dropWhile isSpace)
      rw [List.takeWhile_append_dropWhile] at hskip
      exact hskip.symm.trans hall
    by_cases hbreak : ∀ c, (t.dropWhile isSpace).head? = some c → Grammar.isBreak c = true
    · exact .inl hbreak
    · push Not at hbreak
      obtain ⟨c, hc, hb⟩ := hbreak
      have hspace : isSpace c = false := by
        have hnot := List.head?_dropWhile_not isSpace t
        rw [hc] at hnot
        exact hnot
      have hl : isLayout c = false := by simpa [isLayout, hspace] using hb
      obtain ⟨cs, hcs⟩ := List.head?_eq_some_iff.mp hc
      rw [hcs, skipLayout, skip, if_neg (by simp [hl])] at hrest
      split at hrest
      · next hslash =>
        obtain ⟨rfl, hslash⟩ := hslash
        obtain ⟨text, rfl⟩ := List.head?_eq_some_iff.mp hslash
        refine .inr ⟨fun hnil ↦ ?_, text, hcs⟩
        have ht := List.takeWhile_append_dropWhile (p := isSpace) (l := t)
        rw [hnil, hcs, List.nil_append] at ht
        rw [hhead '/' (by rw [← ht]; rfl)] at hl
        cases hl
      · cases hrest
  | @char c s t hc h =>
    rw [hs c rfl] at hc
    cases hc
  | @line tail sep more s t ht hsep hm h =>
    have hbreak : ∀ c, (sep ++ (more ++ t)).head? = some c → Grammar.isBreak c = true :=
      fun _ ↦ hsep.isBreak_of_head
    obtain ⟨hfiller, hhead⟩ := ht
    cases hfiller with
    | blanks hw => exact ⟨_, _, rfl, hw, .inl hbreak⟩
    | @comment w text hw ht =>
      have hne : w ≠ [] := by
        rintro rfl
        cases hhead '/' rfl
      refine ⟨w, '/' :: '/' :: (text ++ (sep ++ (more ++ t))), ?_, hw, .inr ⟨hne, _, rfl⟩⟩
      simp

end Respaced

/-- Texts that differ in their layout still do so without the layout at their start. -/
theorem respaced_skip (hpassed : passed = isSpace ∨ passed = isLayout) (h : Respaced s t)
    (inComment : Bool) : Respaced (skip passed inComment s) (skip passed inComment t) := by
  have hslash : passed '/' = false := by rcases hpassed with rfl | rfl <;> rfl
  have hspace : ∀ c, isSpace c = true → passed c = true := by
    rcases hpassed with rfl | rfl
    · exact fun _ ↦ id
    · exact fun _ ↦ isLayout_of_isSpace
  have hlayout : ∀ c, passed c = true → isLayout c = true := by
    rcases hpassed with rfl | rfl
    · exact fun _ ↦ isLayout_of_isSpace
    · exact fun _ ↦ id
  induction h generalizing inComment with
  | @stop t hhead hall =>
    have hrest : skipLayout (skip passed inComment t) = [] := by
      rw [skipLayout, skip_skip hlayout rfl]
      cases inComment with
      | false => exact hall
      | true => exact skip_comment_eq_nil hall
    rw [skip]
    exact .stop (isLayout_of_settled (settled_skip passed inComment t) hrest) hrest
  | @char c s t hc h ih =>
    cases inComment with
    | true =>
      rw [skip, skip, if_neg (by simp [hc]), if_neg (by simp [hc])]
      exact ih true
    | false =>
      simp only [skip, h.head?_eq_some_iff (a := '/') rfl]
      split
      · exact ih false
      · split
        · exact ih true
        · exact .char hc h
  | @line tail sep more s t ht hsep hm h ih =>
    have hbreak : ∀ c, (sep ++ (more ++ t)).head? = some c → Grammar.isBreak c = true :=
      fun _ ↦ hsep.isBreak_of_head
    rw [skip_filler ht.filler hspace hslash hbreak inComment,
      skip_eq_of_endsLine (by simp [Grammar.isBreak])]
    rcases hpassed with rfl | rfl
    -- Within the line, both texts stop at the break.
    · have hstop : skip isSpace false (sep ++ (more ++ t)) = sep ++ (more ++ t) := by
        apply skip_of_settled
        obtain ⟨b, bs, rfl, hb⟩ := hsep.exists_cons
        rintro c cs ⟨⟩
        refine ⟨isSpace_of_isBreak hb, ?_⟩
        rintro ⟨rfl, -⟩
        cases hb
      rw [hstop]
      exact @Respaced.line [] _ _ _ _ ⟨.blanks (by simp), by simp⟩ hsep hm h
    · have hmore : skip isLayout false (more ++ t) =
          skip isLayout false t := hm t
      rw [skip_append isLayout (fun c ↦ hsep.isLayout), hmore]
      exact ih false

/-! ### Words -/

/-- The texts differ in their layout, and no gap begins in either. -/
structure InLine (s t : List Char) : Prop where
  respaced : Respaced s t
  left : Settled isSpace s
  right : Settled isSpace t

/-- The texts differ in their layout, and no layout begins in either. -/
structure AtStart (s t : List Char) : Prop where
  respaced : Respaced s t
  left : Settled isLayout s
  right : Settled isLayout t

/-- The relation holds behind the gaps at the start. -/
def Behind (R : List Char → List Char → Prop) (s t : List Char) : Prop := R (skipGap s) (skipGap t)

theorem settled_isSpace (h : Settled isLayout s) : Settled isSpace s := by
  rintro c cs rfl
  obtain ⟨hc, hslash⟩ := h c cs rfl
  refine ⟨?_, hslash⟩
  by_contra hs
  rw [isLayout_of_isSpace (by simpa using hs)] at hc
  cases hc

theorem AtStart.inLine (h : AtStart s t) : InLine s t :=
  ⟨h.respaced, settled_isSpace h.left, settled_isSpace h.right⟩

theorem Respaced.behind (h : Respaced s t) : Behind InLine s t :=
  ⟨respaced_skip (.inl rfl) h false, settled_skip isSpace false s, settled_skip isSpace false t⟩

theorem Respaced.atStart (h : Respaced s t) : AtStart (skipLayout s) (skipLayout t) :=
  ⟨respaced_skip (.inr rfl) h false, settled_skip isLayout false s, settled_skip isLayout false t⟩

variable {lost stuck stuck' : List Char → Prop} {In Mid Out R : List Char → List Char → Prop}
  {e : Grammar.Expr α} {f : Grammar.Expr β} {V : α → α → Prop} {W : β → β → Prop}

/-- Gaps lead to what is behind them. -/
theorem tracks_gap : Grammar.gap.Tracks lost stuck (Behind R) R fun _ _ ↦ True := by
  intro c c' hc
  obtain ⟨next, hnext, hrest⟩ := outcome_gap c
  obtain ⟨next', hnext', hrest'⟩ := outcome_gap c'
  rw [hnext, hnext']
  refine .matched trivial ?_
  rw [hrest, hrest']
  exact hc

/-- A text without layout is read alike. -/
theorem tracks_literal (text : String) (h : isWord text = true) :
    (Peg.literal text : Grammar.Expr Unit).Tracks lost stuck Respaced Respaced
      fun _ _ ↦ True := by
  suffices hdrop : ∀ w s t, (∀ a ∈ w, isLayout a = false) → Respaced s t →
      Option.Rel Respaced (Peg.dropText? w s) (Peg.dropText? w t) by
    intro c c' hc
    have hword : ∀ a ∈ text.toList, isLayout a = false := fun a ha ↦ by
      simpa using List.all_eq_true.mp h a ha
    have hrel := hdrop text.toList c.rest c'.rest hword hc
    rw [Peg.outcome, Peg.outcome]
    generalize Peg.dropText? text.toList c.rest = o at hrel ⊢
    generalize Peg.dropText? text.toList c'.rest = o' at hrel ⊢
    cases hrel with
    | none => exact .refused
    | some hr => exact .matched trivial hr
  intro w
  induction w with
  | nil => exact fun s t _ hst ↦ .some hst
  | cons a w ih =>
    intro s t hw hst
    obtain ⟨ha, hw⟩ := List.forall_mem_cons.mp hw
    have hnone : ∀ u : List Char, u.head? ≠ some a → Peg.dropText? (a :: w) u = none := by
      intro u hu
      cases u with
      | nil => rfl
      | cons d u => exact if_neg fun had ↦ hu (by rw [had]; rfl)
    by_cases hs : s.head? = some a
    · obtain ⟨s', t', rfl, rfl, hst'⟩ := hst.exists_of_head ha hs
      simp only [Peg.dropText?, if_true]
      exact ih s' t' hw hst'
    · rw [hnone s hs, hnone t fun ht ↦ hs ((hst.head?_eq_some_iff ha).mpr ht)]
      exact .none

/-- A class without layout is read alike. -/
theorem tracks_satisfying {p : Char → Bool} (h : ∀ a, isLayout a = true → p a = false) :
    (Peg.satisfying p : Grammar.Expr Char).Tracks lost stuck Respaced Respaced (· = ·) := by
  intro c c' hc
  by_cases hs : ∃ a, c.rest.head? = some a ∧ isLayout a = false
  · obtain ⟨a, hs, ha⟩ := hs
    obtain ⟨s', t', hs', ht', hst⟩ := hc.exists_of_head ha hs
    simp only [Peg.outcome, hs', ht']
    split
    · exact .matched rfl hst
    · exact .refused
  · push Not at hs
    have hrefused : ∀ d : Cursor, (∀ a, d.rest.head? = some a → isLayout a ≠ false) →
        (Peg.satisfying p : Grammar.Expr Char).outcome d = none := by
      intro d hd
      exact Refuses.satisfying (fun a ha ↦ h a (by simpa using hd a ha)) d.pos
    rw [hrefused c hs, hrefused c' fun a ht ha ↦ hs a ((hc.head?_eq_some_iff ha).mpr ht) ha]
    exact .refused

end TapeMachine.Definition
