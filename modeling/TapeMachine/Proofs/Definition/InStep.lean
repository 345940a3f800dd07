import TapeMachine.Proofs.Definition.Respacing
import TapeMachine.Proofs.Text.Trim

/-!
# Words in step

The words of the grammar are read alike from texts that differ in their layout. A name takes blanks
at the end of its line with it, which do not count; and a tape that is not closed on its line may be
closed by a comment behind it, where the first text is lost.
-/

namespace TapeMachine.Definition

open Peg (Cursor Takes Refuses Tracks InStep never)

variable {α β : Type} {lost stuck stuck' : List Char → Prop}
  {In Mid Out R : List Char → List Char → Prop} {e : Grammar.Expr α} {f : Grammar.Expr β}
  {V : α → α → Prop} {W : β → β → Prop} {s t : List Char}

/-- The values are the same, wherever they stand. -/
def SameValue (a b : Located α) : Prop := a.value = b.value

/-! ### Words without layout -/

/-- A class that holds none of the four characters of layout is read alike. -/
theorem tracks_class {p : Char → Bool} (hb : p ' ' = false) (ht : p '\t' = false)
    (hn : p '\n' = false) (hr : p '\r' = false) :
    (Peg.satisfying p : Grammar.Expr Char).Tracks lost stuck Respaced Respaced (· = ·) := by
  apply tracks_satisfying
  intro a ha
  rcases isLayout_eq_true_iff.mp ha with rfl | rfl | rfl | rfl
  · exact hb
  · exact ht
  · exact hn
  · exact hr

theorem tracks_digits : Grammar.digit.some.Tracks never never Respaced Respaced (· = ·) :=
  (Tracks.some rfl (tracks_class rfl rfl rfl rfl)).mono (fun _ _ ↦ id) (fun _ _ ↦ id)
    fun _ _ h ↦ List.forall₂_eq_eq_eq ▸ h

theorem tracks_count : Grammar.count.Tracks never never Respaced Respaced SameValue :=
  tracks_digits.rule

theorem tracks_state : Grammar.state.Tracks never never Respaced Respaced SameValue := by
  have hletter : (Peg.literal "q" : Grammar.Expr Unit).optional.Tracks never never Respaced Respaced
      (Option.Rel fun _ _ ↦ True) :=
    (tracks_literal "q" (by decide)).optional (fun _ _ ↦ id) (fun _ ↦ id) fun _ ↦ id
  exact (hletter.right tracks_count).rule.map fun _ _ h ↦ h

theorem tracks_action : Grammar.action.Tracks never never Respaced Respaced SameValue :=
  (tracks_class rfl rfl rfl rfl).rule

theorem tracks_position : Grammar.position.Tracks never never Respaced Respaced SameValue := by
  have hsign : (Peg.literal "-" : Grammar.Expr Unit).optional.Tracks never never Respaced Respaced
      (Option.Rel fun _ _ ↦ True) :=
    (tracks_literal "-" (by decide)).optional (fun _ _ ↦ id) (fun _ ↦ id) fun _ ↦ id
  refine ((hsign.seq tracks_digits).map (W := (· = ·)) ?_).rule
  rintro ⟨o, ds⟩ ⟨o', ds'⟩ ⟨ho, rfl⟩
  cases ho <;> rfl

theorem tracks_modeValue : Grammar.modeValue.Tracks never never Respaced Respaced SameValue :=
  (((tracks_literal "normal" (by decide)).map fun _ _ _ ↦ rfl).choice
    ((tracks_literal "strict" (by decide)).map fun _ _ _ ↦ rfl)).rule

/-! ### Symbols -/

/-- Where the line goes on, any class is read alike. -/
theorem tracks_satisfying_of_not_endsLine (p : Char → Bool) :
    (Peg.satisfying p : Grammar.Expr Char).Tracks lost stuck
      (fun s t ↦ Respaced s t ∧ ¬EndsLine s) Respaced (· = ·) := by
  rintro ⟨s, pos⟩ ⟨t, pos'⟩ ⟨hst, hs⟩
  cases hst with
  | stop => exact absurd (fun a ha ↦ by cases ha) hs
  | char hc h =>
    simp only [Peg.outcome]
    split
    · exact .matched rfl h
    · exact .refused
  | line => exact absurd (fun a ha ↦ (Option.some.inj ha).symm) hs

/-- What stands between single quotes, with the second quote. -/
def quotedChar : Grammar.Expr (Located Char) :=
  Peg.left (.rule .symbolChar (.satisfying fun c ↦ !(c = '\'' || Grammar.isBreak c)))
    (Peg.literal "'")

/-- No quote is closed over the end of a line, whatever is added to it. -/
theorem refuses_quotedChar (h : Respaced s t) (hs : EndsLine s) : quotedChar.Refuses t := by
  obtain ⟨w, rest, rfl, hw, hrest⟩ := h.exists_of_endsLine hs
  cases w with
  | nil =>
    rcases hrest with hrest | ⟨hne, -⟩
    · refine ((Refuses.satisfying fun a ha ↦ ?_).rule.seq _).map
      simp [hrest a ha]
    · exact absurd rfl hne
  | cons b w =>
    have hb : (!(b = '\'' || Grammar.isBreak b)) = true := by
      rcases isSpace_eq_true_iff.mp (hw b List.mem_cons_self) with rfl | rfl <;> rfl
    have hquote : (Peg.literal "'" : Grammar.Expr Unit).Refuses (w ++ rest) := by
      refine Refuses.literal ?_
      rintro ⟨u, hu⟩
      have hu : '\'' :: u = w ++ rest := hu
      cases w with
      | nil =>
        rcases hrest with hrest | ⟨-, text, rfl⟩
        · have hbreak := hrest '\'' (by rw [← List.nil_append rest, ← hu]; rfl)
          cases hbreak
        · cases hu
      | cons d w =>
        have hd := hw d (List.mem_cons_of_mem _ List.mem_cons_self)
        rw [← (List.cons.inj hu).1] at hd
        cases hd
    exact (Refuses.seq_of_takes (Takes.satisfying hb _).rule hquote).map

theorem tracks_quotedChar : quotedChar.Tracks never never Respaced Respaced SameValue := by
  intro c c' hc
  by_cases hend : EndsLine c.rest
  · have hself : quotedChar.outcome c = none := by
      refine ((Refuses.satisfying fun a ha ↦ ?_).rule.seq _).map c.pos
      rw [hend a ha]
      rfl
    rw [hself, refuses_quotedChar hc hend c'.pos]
    exact .refused
  · exact (tracks_satisfying_of_not_endsLine _).rule.left (tracks_literal "'" (by decide))
      c c' ⟨hc, hend⟩

theorem tracks_symbol : Grammar.symbol.Tracks never never Respaced Respaced SameValue := by
  have hquoted : Grammar.quotedSymbol.Tracks never never Respaced Respaced
      fun a b ↦ SameValue a.value b.value :=
    ((tracks_literal "'" (by decide)).right tracks_quotedChar).rule
  have hbare : Grammar.bareSymbol.Tracks never never Respaced Respaced SameValue :=
    (tracks_class rfl rfl rfl rfl).rule
  exact ((hquoted.map (W := (· = ·)) fun _ _ h ↦ h).choice (hbare.map fun _ _ h ↦ h)).rule

/-! ### Tapes -/

/-- The characters of a tape. -/
def isTapeChar (c : Char) : Bool := !(c = '"' || Grammar.isBreak c)

/-- A tape that is closed on its line is closed alike. -/
theorem dropWhile_isTapeChar (h : Respaced s t) {rest : List Char}
    (hs : s.dropWhile isTapeChar = '"' :: rest) :
    t.takeWhile isTapeChar = s.takeWhile isTapeChar ∧
      ∃ rest', t.dropWhile isTapeChar = '"' :: rest' ∧ Respaced rest rest' := by
  induction h with
  | stop => cases hs
  | @char c s t hc h ih =>
    by_cases hp : isTapeChar c = true
    · rw [List.dropWhile_cons_of_pos hp] at hs ⊢
      rw [List.takeWhile_cons_of_pos hp, List.takeWhile_cons_of_pos hp, (ih hs).1]
      exact ⟨rfl, (ih hs).2⟩
    · rw [List.dropWhile_cons_of_neg hp] at hs ⊢
      rw [List.takeWhile_cons_of_neg hp, List.takeWhile_cons_of_neg hp]
      obtain ⟨rfl, rfl⟩ := List.cons.inj hs
      exact ⟨rfl, t, rfl, h⟩
  | line =>
    rw [List.dropWhile_cons_of_neg (by decide)] at hs
    cases hs

/-- What stands between double quotes, with the second quote. -/
def quotedTape : Grammar.Expr (Located (List Char)) :=
  Peg.left (.rule .tapeInner (Peg.many (.satisfying isTapeChar))) (Peg.literal "\"")

theorem outcome_quotedTape (c : Cursor) :
    quotedTape.outcome c = (Peg.dropText? ['"'] (c.rest.dropWhile isTapeChar)).map fun rest ↦
      (⟨c.rest.takeWhile isTapeChar, c.pos, c.pos + (c.rest.takeWhile isTapeChar).length⟩,
        ⟨rest, c.pos + (c.rest.takeWhile isTapeChar).length + 1⟩) := by
  have hinner : (Peg.rule RuleName.tapeInner (Peg.many (.satisfying isTapeChar))).outcome c =
      some (⟨c.rest.takeWhile isTapeChar, c.pos, c.pos + (c.rest.takeWhile isTapeChar).length⟩,
        ⟨c.rest.dropWhile isTapeChar, c.pos + (c.rest.takeWhile isTapeChar).length⟩) := by
    rw [Peg.outcome, Peg.outcome_many_satisfying]
    rfl
  rw [quotedTape, Peg.left, Peg.outcome, Peg.outcome, hinner, Option.bind_some, Peg.outcome,
    Option.map_map, Option.map_map]
  rfl

/-- A tape begins here, whether it is closed or not. -/
def BeginsTape (s : List Char) : Prop := ∃ rest, s = '"' :: rest

/-- A tape that is not closed on its line is refused, but a comment may close it. -/
theorem tracks_tape : Grammar.tape.Tracks BeginsTape never Respaced Respaced SameValue := by
  have hquoted : quotedTape.Tracks (fun _ ↦ True) never Respaced Respaced SameValue := by
    intro c c' hc
    rw [outcome_quotedTape, outcome_quotedTape]
    cases hdrop : Peg.dropText? ['"'] (c.rest.dropWhile isTapeChar) with
    | none => exact .lost trivial
    | some rest =>
      obtain ⟨htake, rest', hdrop', hrest⟩ :=
        dropWhile_isTapeChar hc (Peg.dropText?_eq_some_iff.mp hdrop)
      rw [Peg.dropText?_eq_some_iff.mpr hdrop']
      exact .matched htake.symm hrest
  have hopened : ((Peg.literal "\"").right quotedTape).Tracks BeginsTape never Respaced Respaced
      SameValue := by
    have hquote : (Peg.literal "\"" : Grammar.Expr Unit).Tracks BeginsTape never Respaced Respaced
        fun _ _ ↦ True := tracks_literal "\"" (by decide)
    refine (hquote.seq_of hquoted ?_ (fun _ ↦ id) fun _ ↦ False.elim).map fun _ _ h ↦ h.2
    intro c a next h _
    obtain ⟨rest, hdrop, -⟩ := Option.map_eq_some_iff.mp h
    exact ⟨rest, Peg.dropText?_eq_some_iff.mp hdrop⟩
  exact hopened.rule.map fun _ _ h ↦ h

/-! ### Names -/

/-- One character of a name. -/
def nameChar : Grammar.Expr Char :=
  (Peg.without (.literal "//")).right (.satisfying fun c ↦ !Grammar.isBreak c)

theorem refuses_nameChar (h : (∀ c, s.head? = some c → Grammar.isBreak c = true) ∨
    ∃ text, s = '/' :: '/' :: text) : nameChar.Refuses s := by
  rcases h with h | ⟨text, rfl⟩
  · exact Refuses.without_right (.satisfying fun a ha ↦ by simp [h a ha]) _
  · intro pos
    rw [nameChar, Peg.outcome_without_right]
    rfl

theorem outcome_nameChar {c : Char} (hc : Grammar.isBreak c = false)
    (hs : ¬(c = '/' ∧ s.head? = some '/')) (pos : Nat) :
    nameChar.outcome ⟨c :: s, pos⟩ = some (c, ⟨s, pos + 1⟩) := by
  have hslashes :
      ((Peg.literal "//" : Grammar.Expr Unit).outcome ⟨c :: s, pos⟩).isSome = false := by
    rw [Peg.isSome_outcome_literal, Bool.eq_false_iff]
    intro hp
    have hp : ['/', '/'] <+: c :: s := List.isPrefixOf_iff_prefix.mp hp
    obtain ⟨hslash, u, hu⟩ := List.cons_prefix_cons.mp hp
    exact hs ⟨hslash.symm, by rw [← hu]; rfl⟩
  rw [nameChar, Peg.outcome_without_right, hslashes]
  simp [Peg.outcome, hc]

/-- Blanks at the end of a line are taken for a part of the name. -/
theorem outcome_many_nameChar_of_endsLine (h : Respaced s t) (hs : EndsLine s) (pos : Nat) :
    ∃ w next, nameChar.many.outcome ⟨t, pos⟩ = some (w, next) ∧
      (∀ c ∈ w, isSpace c = true) ∧ Behind InLine s next.rest := by
  have hbehind := h.behind
  obtain ⟨w, rest, rfl, hw, hrest⟩ := h.exists_of_endsLine hs
  have htakes : nameChar.many.Takes w rest fun as ↦ as = w := by
    refine .many_chars rfl (fun c ds hc pos ↦ ?_) (refuses_nameChar (hrest.imp id And.right))
    have hspace := hw c (hc.subset List.mem_cons_self)
    refine ⟨c, outcome_nameChar (isBreak_of_isSpace hspace) ?_ pos, rfl⟩
    rintro ⟨rfl, -⟩
    cases hspace
  obtain ⟨as, has, rfl⟩ := htakes pos
  refine ⟨as, _, has, hw, ?_⟩
  have hskip : skipGap (as ++ rest) = skipGap rest := skip_append isSpace hw rest
  rwa [Behind, hskip] at hbehind

/-- Where two slashes stand in one text, they stand in the other. -/
theorem Respaced.slashes_iff (h : Respaced s t) (c : Char) :
    c = '/' ∧ s.head? = some '/' ↔ c = '/' ∧ t.head? = some '/' := by
  rw [h.head?_eq_some_iff rfl]

theorem refuses_nameChar_of_slashes {c : Char} (h : c = '/' ∧ s.head? = some '/') :
    nameChar.Refuses (c :: s) := by
  obtain ⟨rfl, h⟩ := h
  obtain ⟨u, rfl⟩ := List.head?_eq_some_iff.mp h
  exact refuses_nameChar (.inr ⟨u, rfl⟩)

theorem refuses_nameChar_of_endsLine (h : EndsLine s) : nameChar.Refuses s :=
  refuses_nameChar (.inl fun c hc ↦ by rw [h c hc]; rfl)

/-- A name begins alike. -/
theorem tracks_nameChar : nameChar.Tracks never never InLine Respaced (· = ·) := by
  rintro ⟨s, pos⟩ ⟨t, pos'⟩ hst
  by_cases hs : EndsLine s
  · obtain ⟨w, rest, rfl, hw, hrest⟩ := hst.respaced.exists_of_endsLine hs
    have hnil : w = [] := by
      cases w with
      | nil => rfl
      | cons c w =>
        have hc := (hst.right c (w ++ rest) rfl).1
        rw [hw c List.mem_cons_self] at hc
        cases hc
    subst hnil
    have hbreak := hrest.resolve_right fun h ↦ h.1 rfl
    rw [refuses_nameChar_of_endsLine hs pos, List.nil_append,
      refuses_nameChar (.inl hbreak) pos']
    exact .refused
  · cases hst.respaced with
    | stop => exact absurd (fun a ha ↦ by cases ha) hs
    | line => exact absurd (fun a ha ↦ (Option.some.inj ha).symm) hs
    | @char c s t hc h =>
      by_cases hslash : c = '/' ∧ s.head? = some '/'
      · rw [refuses_nameChar_of_slashes hslash pos,
          refuses_nameChar_of_slashes ((h.slashes_iff c).mp hslash) pos']
        exact .refused
      · rw [outcome_nameChar hc hslash pos,
          outcome_nameChar hc (mt (h.slashes_iff c).mpr hslash) pos']
        exact .matched rfl h

/-- A name goes on alike, but for blanks at its end. -/
def SameButBlanks (as bs : List Char) : Prop :=
  ∃ w, bs = as ++ w ∧ ∀ c ∈ w, isSpace c = true

private theorem tracks_many_nameChar_of_endsLine :
    nameChar.many.Tracks never never (fun s t ↦ Respaced s t ∧ EndsLine s) (Behind InLine)
      SameButBlanks := by
  rintro ⟨s, pos⟩ ⟨t, pos'⟩ ⟨hst, hs⟩
  obtain ⟨w, next', hm, hw, hnext⟩ := outcome_many_nameChar_of_endsLine hst hs pos'
  rw [Peg.outcome_many_of_none (refuses_nameChar_of_endsLine hs pos), hm]
  exact .matched ⟨w, rfl, hw⟩ hnext

theorem tracks_many_nameChar :
    nameChar.many.Tracks never never Respaced (Behind InLine) SameButBlanks := by
  rintro ⟨s, pos⟩ ⟨t, pos'⟩ (hst : Respaced s t)
  induction hst generalizing pos pos' with
  | stop hhead hall =>
    exact tracks_many_nameChar_of_endsLine ⟨[], pos⟩ _
      ⟨.stop hhead hall, fun a ha ↦ by cases ha⟩
  | @line tail sep more s t ht hsep hm h =>
    exact tracks_many_nameChar_of_endsLine ⟨'\n' :: s, pos⟩ _
      ⟨.line ht hsep hm h, fun a ha ↦ (Option.some.inj ha).symm⟩
  | @char c s t hc h ih =>
    by_cases hslash : c = '/' ∧ s.head? = some '/'
    · rw [Peg.outcome_many_of_none (refuses_nameChar_of_slashes hslash pos),
        Peg.outcome_many_of_none
          (refuses_nameChar_of_slashes ((h.slashes_iff c).mp hslash) pos')]
      exact .matched ⟨[], rfl, by simp⟩ (Respaced.char hc h).behind
    · obtain ⟨as, last, hm⟩ := Peg.exists_outcome_many nameChar ⟨s, pos + 1⟩
      have hrest := ih (pos + 1) (pos' + 1)
      rw [hm] at hrest
      obtain ⟨bs, last', hm', ⟨w, rfl, hw⟩, hlast⟩ := hrest.exists_of_some
      rw [Peg.outcome_many_of_some rfl (outcome_nameChar hc hslash pos) hm,
        Peg.outcome_many_of_some rfl
          (outcome_nameChar hc (mt (h.slashes_iff c).mpr hslash) pos') hm']
      exact .matched ⟨w, rfl, hw⟩ hlast

/-- Names are read alike, but for blanks at their ends. -/
theorem tracks_text : Grammar.text.Tracks never never InLine (Behind InLine)
    fun a b ↦ Text.trim a.value = Text.trim b.value := by
  have hsome : nameChar.some.Tracks never never InLine (Behind InLine)
      fun as bs ↦ Text.trim as = Text.trim bs := by
    refine (tracks_nameChar.seq tracks_many_nameChar).map ?_
    rintro ⟨c, as⟩ ⟨_, bs⟩ ⟨rfl, w, rfl, hw⟩
    have hblank : ∀ d ∈ w, Text.isBlank d = true := fun d hd ↦
      isBlank_of_isLayout (isLayout_of_isSpace (hw d hd))
    exact (Text.trim_append_blanks (c :: as) hblank).symm
  exact hsome.rule

/-! ### Parts with gaps between them -/

/-- A part behind a gap. -/
theorem tracks_gap_right (h : f.Tracks never stuck Mid Out W) :
    (Grammar.gap.right f).Tracks never stuck (Behind Mid) Out W :=
  tracks_gap.right h

/-- A part after another. -/
theorem tracks_pair (h : e.Tracks lost never In (Behind Mid) V)
    (h' : f.Tracks never stuck Mid Out W) :
    (Grammar.pair e f).Tracks lost stuck In Out fun x y ↦ V x.1 y.1 ∧ W x.2 y.2 :=
  h.seq (tracks_gap_right h')

/-- A word between gaps. -/
theorem tracks_inLine (h : e.Tracks lost stuck Respaced Respaced V) :
    e.Tracks lost stuck InLine (Behind InLine) V :=
  h.mono (fun _ _ h ↦ h.respaced) (fun _ _ ↦ Respaced.behind) fun _ _ ↦ id

/-- A part after a text. -/
theorem tracks_after {text : String} (ht : isWord text = true)
    (h : f.Tracks never stuck InLine Out W) :
    (Grammar.after text f).Tracks never stuck InLine Out W :=
  (tracks_inLine (tracks_literal text ht)).right (tracks_gap_right h)

/-- A word before a text. -/
theorem tracks_before {text : String} (ht : isWord text = true)
    (h : f.Tracks never never Respaced Respaced W) :
    (Grammar.before f text).Tracks never never InLine (Behind InLine) W :=
  (tracks_inLine h).left (tracks_gap_right (tracks_inLine (tracks_literal text ht)))

/-- A list of parts that are read alike. If a part is lost at the end, the list is stuck there; and
a part that is stuck must end the list. -/
theorem tracks_list (hR : ∀ s t, R s t → Settled isSpace s ∧ Settled isSpace t)
    (hr : e.reads = true) (h : e.Tracks lost stuck R (Behind R) V)
    (hback : ∀ s, lost (skipGap s) → lost s) (hl : ∀ s, lost s → stuck' s)
    (hs : ∀ c, stuck c.rest → stuck' c.rest ∧ (Grammar.gap.right e).outcome c = none) :
    (Grammar.list e).Tracks never stuck' R (Behind R) (List.Forall₂ V) := by
  have hgap : (Grammar.gap.right e).reads = true := Peg.reads_right _ hr
  have hlead : Grammar.gap.Tracks lost never (Behind R) R fun _ _ ↦ True := tracks_gap
  have hround : (Grammar.gap.right e).Tracks lost stuck (Behind R) (Behind R) V := by
    refine (hlead.seq_of h ?_ (fun _ ↦ id) fun _ ↦ False.elim).map fun _ _ h ↦ h.2
    intro c u next hc hlost
    obtain ⟨next', hnext, hrest⟩ := outcome_gap c
    rw [hnext, Option.some.injEq, Prod.mk.injEq] at hc
    rw [← hc.2, hrest] at hlost
    exact hback _ hlost
  have hseq := h.seq_of (hround.many hgap hl hs) (fun _ _ _ _ ↦ False.elim) (fun _ ↦ id)
    fun c hc ↦ ⟨[], c, Peg.outcome_many_of_none (hs c hc).2, (hs c hc).1⟩
  refine (hseq.optional ?_ hl fun _ ↦ id).map ?_
  · intro s t hst
    rw [Behind, skipGap, skipGap, skip_of_settled (hR s t hst).1, skip_of_settled (hR s t hst).2]
    exact hst
  · intro o o' ho
    cases ho with
    | none => exact .nil
    | some hx => exact .cons hx.1 hx.2

/-- A list of parts within a line. -/
theorem tracks_list_inLine (hr : e.reads = true)
    (h : e.Tracks never never InLine (Behind InLine) V) :
    (Grammar.list e).Tracks never never InLine (Behind InLine) (List.Forall₂ V) :=
  tracks_list (fun _ _ h ↦ ⟨h.left, h.right⟩) hr h (fun _ ↦ id) (fun _ ↦ id) fun _ ↦ False.elim

/-- No gap begins in either text, and behind their layout they are the same but for layout. -/
structure AheadAtStart (s t : List Char) : Prop where
  left : Settled isSpace s
  right : Settled isSpace t
  atStart : AtStart (skipLayout s) (skipLayout t)

theorem InLine.aheadAtStart (h : InLine s t) : AheadAtStart s t :=
  ⟨h.left, h.right, h.respaced.atStart⟩

/-- Line breaks lead to where no layout is. -/
theorem tracks_list_lineBreak : (Grammar.list Grammar.lineBreak).Tracks never never AheadAtStart
    (Behind AtStart) fun _ _ ↦ True := by
  intro c c' hc
  obtain ⟨us, next, hlist, hnext⟩ := outcome_list_lineBreak hc.left
  obtain ⟨us', next', hlist', hnext'⟩ := outcome_list_lineBreak hc.right
  rw [hlist, hlist']
  refine .matched trivial ?_
  rw [Behind, hnext, hnext']
  exact hc.atStart

/-- Where a line ends, a part on a line of its own is looked for behind the layout. -/
theorem outcome_onLine (f : Grammar.Expr β) {c : Cursor} {a : Char} (hc : c.rest.head? = some a)
    (ha : Grammar.isBreak a = true) :
    ∃ d : Cursor, d.rest = skipLayout c.rest ∧
      (Grammar.pair Grammar.breaks f).outcome c = (f.outcome d).map (fun x ↦ (((), x.1), x.2)) ∧
      ∃ w, c.Passes w d := by
  obtain ⟨next, hbreaks, hnext⟩ := outcome_breaks_of_isBreak hc ha
  obtain ⟨d, hgap, hd⟩ := outcome_gap next
  obtain ⟨v, hv, -⟩ := Peg.outcome_passes hbreaks
  obtain ⟨w, hw, -⟩ := Peg.outcome_passes hgap
  refine ⟨d, hd.trans hnext, ?_, v ++ w, hv.append hw⟩
  rw [Grammar.pair, Peg.outcome, hbreaks, Option.bind_some, Peg.outcome_right_of_some hgap]

theorem outcome_onLine_of_not_isBreak (f : Grammar.Expr β) {c : Cursor}
    (h : ∀ a, c.rest.head? = some a → Grammar.isBreak a = false) :
    (Grammar.pair Grammar.breaks f).outcome c = none := by
  rw [Grammar.pair, Peg.outcome, outcome_breaks_of_not_isBreak h, Option.bind_none]

/-- A part on a line of its own. At the end of the first text the second may have line breaks, but
nothing comes after them. -/
theorem tracks_onLine (hr : f.reads = true) (h : f.Tracks lost never AtStart Out W) :
    (Grammar.pair Grammar.breaks f).Tracks (fun s ↦ lost (skipLayout s)) never InLine Out
      fun x y ↦ W x.2 y.2 := by
  rintro ⟨s, pos⟩ ⟨t, pos'⟩ (hst : InLine s t)
  cases hst.respaced with
  | stop hhead hall =>
    rw [outcome_onLine_of_not_isBreak f fun a ha ↦ by cases ha]
    by_cases ht : ∃ a, t.head? = some a ∧ Grammar.isBreak a = true
    · obtain ⟨a, ha, hb⟩ := ht
      obtain ⟨⟨d, dpos⟩, hd, hout, -⟩ := outcome_onLine f (c := ⟨t, pos'⟩) ha hb
      obtain rfl : d = [] := hd.trans hall
      rw [hout, Refuses.nil hr dpos]
      exact .refused
    · push Not at ht
      rw [outcome_onLine_of_not_isBreak f fun a ha ↦ by simpa using ht a ha]
      exact .refused
  | @char c s t hc _ =>
    have hnot : ∀ u pos, (Grammar.pair Grammar.breaks f).outcome ⟨c :: u, pos⟩ = none := by
      intro u pos
      apply outcome_onLine_of_not_isBreak
      rintro a ⟨⟩
      exact hc
    rw [hnot, hnot]
    exact .refused
  | @line tail sep more s t ht hsep hm _ =>
    obtain ⟨a, ha⟩ : ∃ a, (tail ++ (sep ++ (more ++ t))).head? = some a := by
      obtain ⟨b, bs, rfl, -⟩ := hsep.exists_cons
      cases tail with
      | nil => exact ⟨b, rfl⟩
      | cons d tail => exact ⟨d, rfl⟩
    have hbreak : Grammar.isBreak a = true := by
      have hlayout := ht.isLayout_of_head hsep ha
      obtain ⟨as, has⟩ := List.head?_eq_some_iff.mp ha
      simpa [isLayout, (hst.right a as has).1] using hlayout
    obtain ⟨d, hd, hout, -⟩ := outcome_onLine f (c := ⟨'\n' :: s, pos⟩) rfl rfl
    obtain ⟨d', hd', hout', -⟩ :=
      outcome_onLine f (c := ⟨tail ++ (sep ++ (more ++ t)), pos'⟩) ha hbreak
    have hstart := h d d' (by rw [hd, hd']; exact hst.respaced.atStart)
    rw [hout, hout']
    rw [hd] at hstart
    generalize f.outcome d = o at hstart ⊢
    generalize f.outcome d' = o' at hstart ⊢
    cases hstart with
    | refused => exact .refused
    | lost hl => exact .lost hl
    | matched hv ho => exact .matched hv ho
    | stuck hs => exact hs.elim

end TapeMachine.Definition
