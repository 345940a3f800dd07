import TapeMachine.Proofs.Definition.Words

/-!
# Layout of definition files

What the grammar passes over between the parts of a file. `skip` takes the layout off the start of a
text, within a line or across lines; a gap reads as much as the one, and line breaks with gaps
between them as much as the other.
-/

namespace TapeMachine.Definition

open Peg (Cursor Refuses)

/-- A blank or a tab. -/
def isSpace (c : Char) : Bool := c = ' ' || c = '\t'

/-- A blank, a tab or a character that ends a line. -/
def isLayout (c : Char) : Bool := isSpace c || Grammar.isBreak c

/-- A text in which there is no layout. -/
def isWord (text : String) : Bool := text.toList.all fun c ↦ !isLayout c

/-- The text without the characters of the class and the comments at its start, where the place is
in a comment or not. A comment ends at a line break. -/
def skip (passed : Char → Bool) : Bool → List Char → List Char
  | _, [] => []
  | true, c :: cs =>
    if Grammar.isBreak c then if passed c then skip passed false cs else c :: cs
    else skip passed true cs
  | false, c :: cs =>
    if passed c then skip passed false cs
    else if c = '/' ∧ cs.head? = some '/' then skip passed true cs
    else c :: cs

-- Layout is skipped by the equations of this function throughout.
attribute [local simp] skip

/-- The text without the gap at its start. -/
abbrev skipGap (text : List Char) : List Char := skip isSpace false text

/-- The text without the gaps and line breaks at its start. -/
abbrev skipLayout (text : List Char) : List Char := skip isLayout false text

variable {passed : Char → Bool} {w text : List Char} {c next : Cursor} {pos : Nat}

theorem isSpace_eq_true_iff {c : Char} : isSpace c = true ↔ c = ' ' ∨ c = '\t' := by
  simp [isSpace]

theorem isBreak_eq_true_iff {c : Char} : Grammar.isBreak c = true ↔ c = '\n' ∨ c = '\r' := by
  simp [Grammar.isBreak]

theorem isLayout_eq_true_iff {c : Char} :
    isLayout c = true ↔ c = ' ' ∨ c = '\t' ∨ c = '\n' ∨ c = '\r' := by
  simp [isLayout, isSpace, Grammar.isBreak, or_assoc]

/-- A line break is no blank. -/
theorem isSpace_of_isBreak {c : Char} (h : Grammar.isBreak c = true) : isSpace c = false := by
  rcases isBreak_eq_true_iff.mp h with rfl | rfl <;> rfl

theorem isBreak_of_isSpace {c : Char} (h : isSpace c = true) : Grammar.isBreak c = false := by
  rcases isSpace_eq_true_iff.mp h with rfl | rfl <;> rfl

theorem isLayout_of_isSpace {c : Char} (h : isSpace c = true) : isLayout c = true := by
  simp [isLayout, h]

theorem isLayout_of_isBreak {c : Char} (h : Grammar.isBreak c = true) : isLayout c = true := by
  simp [isLayout, h]

theorem isBlank_of_isLayout {c : Char} (h : isLayout c = true) : Text.isBlank c = true := by
  rcases isLayout_eq_true_iff.mp h with rfl | rfl | rfl | rfl <;> rfl

/-! ### Skipping -/

/-- Characters of the class are skipped. -/
theorem skip_append (passed : Char → Bool) {w : List Char} (h : ∀ c ∈ w, passed c = true)
    (text : List Char) : skip passed false (w ++ text) = skip passed false text := by
  induction w with
  | nil => rfl
  | cons c w ih =>
    rw [List.cons_append, skip, if_pos (h c List.mem_cons_self)]
    exact ih fun d hd ↦ h d (List.mem_cons_of_mem _ hd)

/-- In a comment the rest of the line is skipped. -/
theorem skip_comment_append (passed : Char → Bool) {w : List Char}
    (h : ∀ c ∈ w, Grammar.isBreak c = false) (text : List Char) :
    skip passed true (w ++ text) = skip passed true text := by
  induction w with
  | nil => rfl
  | cons c w ih =>
    rw [List.cons_append, skip, if_neg (by simp [h c List.mem_cons_self])]
    exact ih fun d hd ↦ h d (List.mem_cons_of_mem _ hd)

/-- Two slashes begin a comment. -/
theorem skip_slashes (h : passed '/' = false) (text : List Char) :
    skip passed false ('/' :: '/' :: text) = skip passed true text := by
  rw [skip, if_neg (by simp [h]), if_pos ⟨rfl, rfl⟩, skip, if_neg (by decide)]

/-- At the end of a line it does not matter whether there was a comment before. -/
theorem skip_eq_of_endsLine (h : ∀ c, text.head? = some c → Grammar.isBreak c = true)
    (inComment : Bool) : skip passed inComment text = skip passed false text := by
  cases inComment with
  | false => rfl
  | true =>
    cases text with
    | nil => rw [skip, skip]
    | cons c cs =>
      have hc := h c rfl
      have hslash : ¬(c = '/' ∧ cs.head? = some '/') := by
        rintro ⟨rfl, -⟩
        cases hc
      rw [skip, skip, if_pos hc, if_neg hslash]

/-- A line break is layout. -/
theorem skipLayout_break {c : Char} (h : Grammar.isBreak c = true) (text : List Char) :
    skipLayout (c :: text) = skipLayout text := by
  rw [skipLayout, skip, if_pos (isLayout_of_isBreak h)]

/-- Before the end of a line the same layout is skipped, and more if nothing else is left. -/
theorem skip_append_of_endsLine {more : List Char}
    (h : ∀ c, more.head? = some c → Grammar.isBreak c = true) (inComment : Bool) (w : List Char) :
    skip isLayout inComment (w ++ more) =
      if skip isLayout inComment w = [] then skipLayout more
      else skip isLayout inComment w ++ more := by
  induction w generalizing inComment with
  | nil =>
    rw [skip, if_pos rfl]
    exact skip_eq_of_endsLine h inComment
  | cons a w ih =>
    rw [List.cons_append]
    cases inComment with
    | true =>
      rw [skip, skip]
      split
      · next hb =>
        rw [if_pos (isLayout_of_isBreak hb), if_pos (isLayout_of_isBreak hb)]
        exact ih false
      · exact ih true
    | false =>
      have hslash : (w ++ more).head? = some '/' ↔ w.head? = some '/' := by
        cases w with
        | nil =>
          constructor
          · intro hm
            cases h '/' hm
          · intro hm
            cases hm
        | cons b w => exact Iff.rfl
      simp only [skip, hslash]
      split
      · exact ih false
      · split
        · exact ih true
        · rw [if_neg (List.cons_ne_nil a w), List.cons_append]

/-- What is left is the end of the text. -/
theorem skip_suffix (passed : Char → Bool) (inComment : Bool) (text : List Char) :
    skip passed inComment text <:+ text := by
  induction text generalizing inComment with
  | nil => exact List.suffix_rfl
  | cons c cs ih =>
    have hcons (inComment : Bool) : skip passed inComment cs <:+ c :: cs :=
      (ih inComment).trans (List.suffix_cons c cs)
    cases inComment with
    | true =>
      rw [skip]
      split
      · split
        · exact hcons false
        · exact List.suffix_rfl
      · exact hcons true
    | false =>
      rw [skip]
      split
      · exact hcons false
      · split
        · exact hcons true
        · exact List.suffix_rfl

/-- Nothing is skipped here. -/
def Settled (passed : Char → Bool) (text : List Char) : Prop :=
  ∀ c cs, text = c :: cs → passed c = false ∧ ¬(c = '/' ∧ cs.head? = some '/')

theorem skip_of_settled (h : Settled passed text) : skip passed false text = text := by
  cases text with
  | nil => rw [skip]
  | cons c cs =>
    obtain ⟨ho, hc⟩ := h c cs rfl
    rw [skip, if_neg (by simp [ho]), if_neg hc]

/-- Behind what is skipped nothing is. -/
theorem settled_skip (passed : Char → Bool) (inComment : Bool) (text : List Char) :
    Settled passed (skip passed inComment text) := by
  induction text generalizing inComment with
  | nil =>
    rw [skip]
    intro c cs h
    cases h
  | cons d ds ih =>
    cases inComment with
    | true =>
      rw [skip]
      split
      · next hb =>
        split
        · exact ih false
        · next ho =>
          rintro c cs ⟨⟩
          refine ⟨by simpa using ho, ?_⟩
          rintro ⟨rfl, -⟩
          cases hb
      · exact ih true
    | false =>
      rw [skip]
      split
      · exact ih false
      · next ho =>
        split
        · exact ih true
        · next hc =>
          rintro c cs ⟨⟩
          exact ⟨by simpa using ho, hc⟩

/-- What skips more skips it after what skips less as well. -/
theorem skip_skip {passed' : Char → Bool} (h : ∀ c, passed c = true → passed' c = true)
    (hslash : passed' '/' = false) (inComment : Bool) (text : List Char) :
    skip passed' false (skip passed inComment text) = skip passed' inComment text := by
  induction text generalizing inComment with
  | nil => rw [skip, skip, skip]
  | cons c cs ih =>
    cases inComment with
    | true =>
      by_cases hb : Grammar.isBreak c = true
      · by_cases ho : passed c = true
        · rw [skip, if_pos hb, if_pos ho, ih, skip, if_pos hb, if_pos (h c ho)]
        · rw [skip, if_pos hb, if_neg ho]
          exact (skip_eq_of_endsLine (by simpa using hb) true).symm
      · rw [skip, if_neg hb, ih, skip, if_neg hb]
    | false =>
      by_cases ho : passed c = true
      · rw [skip, if_pos ho, ih, skip, if_pos (h c ho)]
      · by_cases hc : c = '/' ∧ cs.head? = some '/'
        · rw [skip, if_neg ho, if_pos hc, ih, skip, if_neg (by simp [hc.1, hslash]), if_pos hc]
        · rw [skip, if_neg ho, if_neg hc]

/-- Behind a gap there is no other. -/
theorem skipGap_skipGap (text : List Char) : skipGap (skipGap text) = skipGap text :=
  skip_skip (fun _ ↦ id) rfl false text

/-- Layout begins with a gap. -/
theorem skipLayout_skipGap (text : List Char) : skipLayout (skipGap text) = skipLayout text :=
  skip_skip (fun _ ↦ isLayout_of_isSpace) rfl false text

/-- Where no line ends, layout is a gap. -/
theorem settled_layout (h : Settled isSpace text)
    (hb : ∀ c, text.head? = some c → Grammar.isBreak c = false) : Settled isLayout text := by
  rintro c cs rfl
  obtain ⟨hs, hc⟩ := h c cs rfl
  exact ⟨by simp [isLayout, hs, hb c rfl], hc⟩

/-! ### Gaps -/

private theorem isBreak_of_dropWhile (text : List Char) (a : Char)
    (h : (text.dropWhile fun d ↦ !Grammar.isBreak d).head? = some a) :
    Grammar.isBreak a = true := by
  have hnot := List.head?_dropWhile_not (fun d ↦ !Grammar.isBreak d) text
  rw [h] at hnot
  simpa using hnot

/-- A comment is read at two slashes, and to the end of its line. -/
theorem skipGap_of_outcome_comment {as : List Char}
    (h : Grammar.comment.outcome c = some (as, next)) : skipGap next.rest = skipGap c.rest := by
  obtain ⟨u, mid, hslashes, hrest⟩ := Peg.outcome_right_eq_some_iff.mp h
  rw [Peg.outcome_many_satisfying, Option.some.injEq, Prod.mk.injEq] at hrest
  obtain ⟨-, rfl⟩ := hrest
  obtain ⟨rest, hdrop, heq⟩ := Option.map_eq_some_iff.mp hslashes
  obtain rfl := (Prod.mk.inj heq).2
  have hline : ∀ d ∈ rest.takeWhile fun d ↦ !Grammar.isBreak d, Grammar.isBreak d = false := by
    intro d hd
    simpa using List.all_eq_true.mp List.all_takeWhile d hd
  have hcomment := skip_comment_append isSpace hline
    (rest.dropWhile fun d ↦ !Grammar.isBreak d)
  rw [List.takeWhile_append_dropWhile] at hcomment
  rw [skipGap, skipGap, Peg.dropText?_eq_some_iff.mp hdrop]
  exact ((skip_slashes rfl rest).trans (hcomment.trans
    (skip_eq_of_endsLine (isBreak_of_dropWhile rest) true))).symm

private theorem skipGap_of_outcome_blanks {as : List Char}
    (h : Grammar.blank.many.outcome c = some (as, next)) : skipGap next.rest = skipGap c.rest := by
  have hblanks := Peg.outcome_many_satisfying (ρ := RuleName) isSpace c
  obtain ⟨-, rfl⟩ := Prod.mk.inj (Option.some.inj (hblanks.symm.trans h))
  have hskip := skip_append isSpace (w := c.rest.takeWhile isSpace)
    (fun d hd ↦ List.all_eq_true.mp List.all_takeWhile d hd) (c.rest.dropWhile isSpace)
  rw [List.takeWhile_append_dropWhile] at hskip
  exact hskip.symm

/-- Where neither a blank nor a comment is read, nothing is skipped. -/
theorem settled_of_refused (hb : Grammar.blank.outcome c = none)
    (hc : Grammar.comment.outcome c = none) : Settled isSpace c.rest := by
  obtain ⟨rest, pos⟩ := c
  rintro a cs rfl
  constructor
  · by_contra ha
    rw [Bool.not_eq_false] at ha
    have hblank : Grammar.blank.outcome ⟨a :: cs, pos⟩ = some (a, ⟨cs, pos + 1⟩) := if_pos ha
    cases hb.symm.trans hblank
  · rintro ⟨rfl, hslash⟩
    obtain ⟨ds, rfl⟩ : ∃ ds, cs = '/' :: ds := by
      cases cs with
      | nil => cases hslash
      | cons d ds => exact ⟨ds, by rw [Option.some.inj hslash]⟩
    have hslashes : (Peg.literal "//" : Grammar.Expr Unit).outcome ⟨'/' :: '/' :: ds, pos⟩ =
        some ((), ⟨ds, pos + 2⟩) := rfl
    rw [Grammar.comment, Peg.outcome_right_of_some hslashes, Peg.outcome_many_satisfying] at hc
    cases hc

/-- A gap leads to where nothing within the line is skipped. -/
theorem outcome_gap (c : Cursor) :
    ∃ next, Grammar.gap.outcome c = some ((), next) ∧ next.rest = skipGap c.rest := by
  obtain ⟨as, mid, hblanks⟩ := Peg.exists_outcome_many Grammar.blank c
  obtain ⟨bs, last, hrounds⟩ := Peg.exists_outcome_many (Grammar.comment.seq Grammar.blank.many) mid
  have hround : ∀ d x next, (Grammar.comment.seq Grammar.blank.many).outcome d = some (x, next) →
      skipGap next.rest = skipGap d.rest ∧ Grammar.blank.outcome next = none := by
    intro d x next ho
    rw [Peg.outcome, Option.bind_eq_some_iff] at ho
    obtain ⟨y, hy, ho⟩ := ho
    obtain ⟨z, hz, heq⟩ := Option.map_eq_some_iff.mp ho
    obtain rfl := (Prod.mk.inj heq).2
    exact ⟨(skipGap_of_outcome_blanks hz).trans (skipGap_of_outcome_comment hy),
      (Peg.outcome_many_last rfl (fun _ _ _ _ ↦ trivial) trivial hz).2⟩
  have hmid := (Peg.outcome_many_last rfl (fun _ _ _ _ ↦ trivial) trivial hblanks).2
  obtain ⟨hblank, hcomment⟩ :=
    Peg.outcome_many_last rfl (fun d x next ho ↦ (hround d x next ho).2) hmid hrounds
  have hskip : skipGap last.rest = skipGap c.rest :=
    (Peg.eq_of_outcome_many (f := fun d ↦ skipGap d.rest) rfl
      (fun d x next ho ↦ (hround d x next ho).1) hrounds).trans (skipGap_of_outcome_blanks hblanks)
  have hnone : Grammar.comment.outcome last = none := by
    rw [Peg.outcome, Option.bind_eq_none_iff] at hcomment
    refine Option.eq_none_iff_forall_ne_some.mpr fun x hx ↦ ?_
    cases hcomment x hx
  refine ⟨last, ?_, ?_⟩
  · rw [Grammar.gap, Peg.outcome, Peg.outcome, hblanks, Option.bind_some, hrounds]
    rfl
  · rw [← hskip]
    exact (skip_of_settled (settled_of_refused hblank hnone)).symm

/-! ### Line breaks -/

/-- A line break is refused where no line ends. -/
theorem outcome_lineBreak_eq_none_iff :
    Grammar.lineBreak.outcome c = none ↔
      ∀ a, c.rest.head? = some a → Grammar.isBreak a = false := by
  constructor
  · intro h a ha
    obtain ⟨hlf, h⟩ := Option.or_eq_none_iff.mp h
    obtain ⟨-, hcr⟩ := Option.or_eq_none_iff.mp h
    obtain ⟨rest, pos⟩ := c
    obtain ⟨cs, rfl⟩ := List.head?_eq_some_iff.mp ha
    by_contra hb
    rw [Bool.not_eq_false] at hb
    rcases isBreak_eq_true_iff.mp hb with rfl | rfl
    · have hread : (Peg.literal "\n" : Grammar.Expr Unit).outcome ⟨'\n' :: cs, pos⟩ =
          some ((), ⟨cs, pos + 1⟩) := rfl
      cases hlf.symm.trans hread
    · have hread : (Peg.literal "\r" : Grammar.Expr Unit).outcome ⟨'\r' :: cs, pos⟩ =
          some ((), ⟨cs, pos + 1⟩) := rfl
      cases hcr.symm.trans hread
  · exact fun h ↦ refuses_lineBreak h c.pos

/-- A line break belongs to the layout. -/
theorem skipLayout_of_outcome_lineBreak {u : Unit}
    (h : Grammar.lineBreak.outcome c = some (u, next)) :
    skipLayout next.rest = skipLayout c.rest := by
  have hread : ∀ s : String, s.toList.all isLayout = true →
      (Peg.literal s : Grammar.Expr Unit).outcome c = some (u, next) →
        skipLayout next.rest = skipLayout c.rest := by
    intro s hs hc
    obtain ⟨rest, hdrop, heq⟩ := Option.map_eq_some_iff.mp hc
    obtain rfl := (Prod.mk.inj heq).2
    rw [Peg.dropText?_eq_some_iff.mp hdrop]
    exact (skip_append isLayout (List.all_eq_true.mp hs) rest).symm
  rcases Option.or_eq_some_iff.mp h with h | ⟨-, h⟩
  · exact hread "\n" (by decide) h
  rcases Option.or_eq_some_iff.mp h with h | ⟨-, h⟩
  · exact hread "\r\n" (by decide) h
  · exact hread "\r" (by decide) h

/-- Behind the last line break the layout is a gap. -/
theorem skipGap_of_refused (h : (Grammar.gap.right Grammar.lineBreak).outcome c = none) :
    skipGap c.rest = skipLayout c.rest := by
  obtain ⟨next, hgap, hnext⟩ := outcome_gap c
  rw [Peg.outcome_right_of_some hgap, outcome_lineBreak_eq_none_iff, hnext] at h
  rw [← skipLayout_skipGap]
  exact (skip_of_settled (settled_layout (settled_skip isSpace false c.rest) h)).symm

/-- Line breaks with gaps before them lead to the last of them. -/
theorem skipGap_of_outcome_many_lineBreak {us : List Unit}
    (h : (Grammar.gap.right Grammar.lineBreak).many.outcome c = some (us, next)) :
    skipGap next.rest = skipLayout c.rest := by
  have hround : ∀ d u mid, (Grammar.gap.right Grammar.lineBreak).outcome d = some (u, mid) →
      skipLayout mid.rest = skipLayout d.rest := by
    intro d u mid ho
    obtain ⟨g, hgap, hg⟩ := outcome_gap d
    rw [Peg.outcome_right_of_some hgap] at ho
    rw [skipLayout_of_outcome_lineBreak ho, hg, skipLayout_skipGap]
  have hlast := (Peg.outcome_many_last rfl (fun _ _ _ _ ↦ trivial) trivial h).2
  rw [skipGap_of_refused hlast]
  exact Peg.eq_of_outcome_many (f := fun d ↦ skipLayout d.rest) rfl hround h

/-- A list of line breaks leads to the last of them. -/
theorem outcome_list_lineBreak (h : Settled isSpace c.rest) :
    ∃ us next, (Grammar.list Grammar.lineBreak).outcome c = some (us, next) ∧
      skipGap next.rest = skipLayout c.rest := by
  cases hfirst : Grammar.lineBreak.outcome c with
  | none =>
    refine ⟨[], c, ?_, ?_⟩
    · simp only [Grammar.list, Peg.outcome, hfirst, Option.bind_none, Option.map_some]
    · have hbreak := outcome_lineBreak_eq_none_iff.mp hfirst
      rw [skipGap, skipLayout, skip_of_settled h, skip_of_settled (settled_layout h hbreak)]
  | some x =>
    obtain ⟨u, mid⟩ := x
    obtain ⟨us, last, hmany⟩ := Peg.exists_outcome_many (Grammar.gap.right Grammar.lineBreak) mid
    have hseq : (Grammar.lineBreak.seq (Grammar.gap.right Grammar.lineBreak).many).outcome c =
        some ((u, us), last) := by
      rw [Peg.outcome, hfirst, Option.bind_some, hmany, Option.map_some]
    refine ⟨u :: us, last, ?_, ?_⟩
    · rw [Grammar.list, Peg.outcome, Peg.outcome, hseq]
      rfl
    · rw [skipGap_of_outcome_many_lineBreak hmany, skipLayout_of_outcome_lineBreak hfirst]

/-- Behind a gap, a list of line breaks leads to the last of them. -/
theorem outcome_gap_lineBreaks (c : Cursor) :
    ∃ us next, (Grammar.gap.right (Grammar.list Grammar.lineBreak)).outcome c = some (us, next) ∧
      skipGap next.rest = skipLayout c.rest := by
  obtain ⟨d, hgap, hd⟩ := outcome_gap c
  obtain ⟨us, next, hlist, hnext⟩ :=
    outcome_list_lineBreak (c := d) (hd ▸ settled_skip isSpace false c.rest)
  exact ⟨us, next, (Peg.outcome_right_of_some hgap).trans hlist,
    by rw [hnext, hd, skipLayout_skipGap]⟩

/-- Breaks are refused where no line ends. -/
theorem outcome_breaks_of_not_isBreak
    (h : ∀ a, c.rest.head? = some a → Grammar.isBreak a = false) :
    Grammar.breaks.outcome c = none := by
  have hfirst := outcome_lineBreak_eq_none_iff.mpr h
  simp only [Grammar.breaks, Grammar.pair, Peg.outcome, hfirst, Option.bind_none, Option.map_none]

/-- Breaks lead to the last of them. -/
theorem outcome_breaks_of_isBreak {a : Char} (h : c.rest.head? = some a)
    (ha : Grammar.isBreak a = true) :
    ∃ next, Grammar.breaks.outcome c = some ((), next) ∧ skipGap next.rest = skipLayout c.rest := by
  cases hfirst : Grammar.lineBreak.outcome c with
  | none =>
    rw [outcome_lineBreak_eq_none_iff.mp hfirst a h] at ha
    cases ha
  | some x =>
    obtain ⟨mid, hgap, hmid⟩ := outcome_gap x.2
    have hsettled : Settled isSpace mid.rest := hmid ▸ settled_skip isSpace false x.2.rest
    obtain ⟨us, next, hlist, hnext⟩ := outcome_list_lineBreak hsettled
    refine ⟨next, ?_, ?_⟩
    · rw [Grammar.breaks, Peg.outcome, Grammar.pair, Peg.outcome, hfirst, Option.bind_some,
        Peg.outcome_right_of_some hgap, hlist]
      rfl
    · rw [hnext, hmid, skipLayout_skipGap, skipLayout_of_outcome_lineBreak hfirst]

end TapeMachine.Definition
