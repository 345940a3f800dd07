import TapeMachine.Proofs.Definition.FileInStep
import TapeMachine.Proofs.Definition.Reading
import TapeMachine.Proofs.Peg.Continuation

/-!
# Blocks

A section that is read where it stands alone is read alike wherever it stands in a file, before
another section or at the end. For a table or inputs end where the next line is none of theirs, and
no line of theirs begins like a section. Hence a file that is made of such texts has their sections,
one after another (`sections_intercalate`).
-/

namespace TapeMachine.Definition

open Peg (Cursor Continues Refuses continues_of_avoids)

variable {α β : Type} {e : Grammar.Expr α} {f : Grammar.Expr β} {w more : List Char}
  {c next last : Cursor}

/-! ### Before the next section -/

/-- A text that begins like a section, with a small letter. -/
def BeginsSmall (w : List Char) : Prop := ∃ a rest, w = a :: rest ∧ a.isLower = true

/-- What stands behind a section in a file: nothing, or a line break and the next section. -/
def NextLine (more : List Char) : Prop := more = [] ∨ ∃ w, more = '\n' :: w ∧ BeginsSmall w

theorem isLayout_lower {a : Char} (ha : a.isLower = true) : isLayout a = false := by
  by_contra hl
  rcases isLayout_eq_true_iff.mp (by simpa using hl) with rfl | rfl | rfl | rfl <;> cases ha

theorem BeginsSmall.settled (h : BeginsSmall w) : Settled isLayout w := by
  obtain ⟨a, rest, rfl, ha⟩ := h
  rintro c cs ⟨⟩
  refine ⟨isLayout_lower ha, ?_⟩
  rintro ⟨rfl, -⟩
  cases ha

theorem BeginsSmall.append (h : BeginsSmall w) (more : List Char) : BeginsSmall (w ++ more) := by
  obtain ⟨a, rest, rfl, ha⟩ := h
  exact ⟨a, rest ++ more, rfl, ha⟩

theorem NextLine.eq_of_head? (h : NextLine more) (a : Char) (ha : more.head? = some a) :
    a = '\n' := by
  rcases h with rfl | ⟨w, rfl, -⟩
  · cases ha
  · exact (Option.some.inj ha).symm

/-- Behind the line break there is the next section or nothing. -/
theorem NextLine.skipLayout_cases (h : NextLine more) :
    skipLayout more = [] ∨ BeginsSmall (skipLayout more) := by
  rcases h with rfl | ⟨w, rfl, hw⟩
  · exact .inl rfl
  · rw [skipLayout_break rfl, skipLayout, skip_of_settled hw.settled]
    exact .inr hw

/-- Before the next line the same layout is skipped, and the line break if nothing else is left. -/
theorem skip_append_of_nextLine (h : NextLine more) (inComment : Bool) (w : List Char) :
    skip isLayout inComment (w ++ more) =
      if skip isLayout inComment w = [] then skipLayout more
      else skip isLayout inComment w ++ more :=
  skip_append_of_endsLine (fun a ha ↦ by rw [h.eq_of_head? a ha]; rfl) inComment w

/-- A part on a line of its own is refused where nothing but the next section is left. -/
theorem outcome_onLine_eq_none (hr : f.reads = true)
    (hf : ∀ a rest, a.isLower = true → f.Refuses (a :: rest))
    (h : skipLayout c.rest = [] ∨ BeginsSmall (skipLayout c.rest)) :
    (Grammar.pair Grammar.breaks f).outcome c = none := by
  by_cases hb : ∃ a, c.rest.head? = some a ∧ Grammar.isBreak a = true
  · obtain ⟨a, ha, hb⟩ := hb
    obtain ⟨⟨rest, pos⟩, hrest, hout, -⟩ := outcome_onLine f ha hb
    have hnone : f.outcome ⟨rest, pos⟩ = none := by
      rcases h with h | ⟨b, bs, hbs, hlower⟩
      · obtain rfl : rest = [] := hrest.trans h
        exact Refuses.nil hr pos
      · obtain rfl : rest = b :: bs := hrest.trans hbs
        exact hf b bs hlower pos
    rw [hout, hnone, Option.map_none]
  · push Not at hb
    exact outcome_onLine_of_not_isBreak f fun a ha ↦ by simpa using hb a ha

/-- A part on a line of its own is read alike before the next section. -/
theorem continues_onLine (hmore : NextLine more) (hr : f.reads = true)
    (hf : ∀ a rest, a.isLower = true → f.Refuses (a :: rest)) (h : f.Continues more) :
    (Grammar.pair Grammar.breaks f).Continues more := by
  intro c
  have hskip := skip_append_of_nextLine hmore false c.rest
  by_cases hnil : skipLayout c.rest = []
  · rw [if_pos hnil] at hskip
    have hlast : skipLayout (c.extend more).rest = [] ∨
        BeginsSmall (skipLayout (c.extend more).rest) := by
      rw [Cursor.rest_extend, skipLayout, hskip]
      exact hmore.skipLayout_cases
    rw [outcome_onLine_eq_none hr hf (.inl hnil), outcome_onLine_eq_none hr hf hlast,
      Option.map_none]
  · rw [if_neg hnil] at hskip
    obtain ⟨a, s, hs⟩ : ∃ a s, c.rest = a :: s := by
      apply List.exists_cons_of_ne_nil
      intro h0
      rw [h0] at hnil
      exact hnil rfl
    have hhead : c.rest.head? = some a := by rw [hs]; rfl
    have hhead' : (c.extend more).rest.head? = some a := by rw [Cursor.extend, hs]; rfl
    by_cases hb : Grammar.isBreak a = true
    · obtain ⟨d, hd, hout, u, hu⟩ := outcome_onLine f hhead hb
      obtain ⟨d', hd', hout', u', hu'⟩ := outcome_onLine f hhead' hb
      have hrest : d'.rest = (d.extend more).rest := by
        rw [hd', Cursor.rest_extend d, hd]
        exact hskip
      have hplace : d' = d.extend more := hu.eq_extend hu' hrest
      rw [hout, hout', hplace, h d, Option.map_map, Option.map_map]
      rfl
    · have hnone : ∀ d : Cursor, d.rest.head? = some a →
          (Grammar.pair Grammar.breaks f).outcome d = none := by
        refine fun d hd ↦ outcome_onLine_of_not_isBreak f fun b hb' ↦ ?_
        obtain rfl := Option.some.inj (hd.symm.trans hb')
        simpa using hb
      rw [hnone c hhead, hnone _ hhead', Option.map_none]

/-- A list is read alike if its parts are. -/
theorem continues_list (hgap : Grammar.gap.Continues more) (hr : e.reads = true)
    (h : e.Continues more) : (Grammar.list e).Continues more :=
  (h.seq ((hgap.right h).many (Peg.reads_right _ hr))).optional.map _

/-- A section is read alike before the next one. -/
theorem continues_anySection (hmore : NextLine more) : Grammar.anySection.Continues more := by
  have avoids : ∀ {γ : Type} {g : Grammar.Expr γ}, g.founded = true → g.avoids '\n' = true →
      g.Continues more := fun hf ha ↦ continues_of_avoids hmore.eq_of_head? hf ha
  have hgap : Grammar.gap.Continues more := avoids rfl rfl
  have hrules : (Grammar.list ((Grammar.pair Grammar.breaks Grammar.transition).map
      Prod.snd)).Continues more :=
    continues_list hgap rfl
      ((continues_onLine hmore rfl (fun _ rest ha ↦ refuses_transition ha rest)
        (avoids rfl rfl)).map _)
  have hruns : (Grammar.list ((Grammar.pair Grammar.breaks Grammar.run).map
      fun r ↦ r.2.value)).Continues more :=
    continues_list hgap rfl
      ((continues_onLine hmore rfl (fun _ rest ha ↦ refuses_run ha rest) (avoids rfl rfl)).map _)
  exact (avoids rfl rfl).choice <| (avoids rfl rfl).choice <| (avoids rfl rfl).choice <|
    (avoids rfl rfl).choice <| (avoids rfl rfl).choice <|
    ((((avoids rfl rfl).right (hgap.right hrules)).map _).rule _).choice
      ((((avoids rfl rfl).right (hgap.right hruns)).map _).rule _)

/-! ### Sections that stand alone -/

/-- Without a carriage return, a text is the same with other layout if layout stands behind it. -/
theorem respaced_append_layout {t : List Char} (hs : '\r' ∉ w) (ht : ∀ a ∈ t, isLayout a = true) :
    Respaced w (w ++ t) := by
  induction w with
  | nil =>
    have hskip := skip_append isLayout ht []
    rw [List.append_nil] at hskip
    exact .stop (fun a ha ↦ ht a (List.mem_of_head? ha)) (hskip.trans (skip.eq_1 _ _))
  | cons a w ih =>
    rw [List.mem_cons, not_or] at hs
    by_cases hb : Grammar.isBreak a = true
    · obtain rfl : a = '\n' := (isBreak_eq_true_iff.mp hb).resolve_right (Ne.symm hs.1)
      exact @Respaced.line [] ['\n'] [] w (w ++ t) ⟨.blanks (by simp), by simp⟩ (.inl rfl)
        (fun _ ↦ rfl) (ih hs.2)
    · exact .char (by simpa using hb) (ih hs.2)

/-- The text begins like a section, and wherever it stands before the next line it is read as a
section with these parts. -/
structure ReadsAs (w : List Char) (s : Section) : Prop where
  begins : BeginsSmall w
  reads : ∀ more pos, NextLine more → ∃ y next,
    Grammar.anySection.outcome ⟨w ++ more, pos⟩ = some (y, next) ∧
      skipLayout next.rest = skipLayout more ∧ SameSection s y.value

/-- A section that stands alone but for layout is read alike everywhere, with other layout as well.
-/
theorem readsAs_of_respaced {w' : List Char} {x : Located Section} (hw : BeginsSmall w)
    (hw' : BeginsSmall w') (h : Respaced w w')
    (hx : Grammar.anySection.outcome (Cursor.ofText w) = some (x, next))
    (hnext : skipLayout next.rest = []) : ReadsAs w' x.value := by
  refine ⟨hw', fun more pos hmore ↦ ?_⟩
  have hline : InLine w w' := ⟨h, settled_isSpace hw.settled, settled_isSpace hw'.settled⟩
  have hread := tracks_anySection (Cursor.ofText w) ⟨w', pos⟩ hline
  rw [hx] at hread
  generalize ho : Grammar.anySection.outcome ⟨w', pos⟩ = o at hread
  cases hread with
  | @matched _ y _ next' hsame hbehind =>
    have hstart := hbehind.respaced.atStart
    rw [skipLayout_skipGap, skipLayout_skipGap] at hstart
    have hnil : skipLayout next'.rest = [] := hstart.nil_iff.mp hnext
    have hmoreread := continues_anySection hmore ⟨w', pos⟩
    rw [ho] at hmoreread
    refine ⟨y, next'.extend more, hmoreread, ?_, hsame⟩
    rw [Cursor.rest_extend, skipLayout, skip_append_of_nextLine hmore, if_pos hnil]
  | stuck htape =>
    obtain ⟨rest, hrest⟩ := htape
    rw [hnext] at hrest
    cases hrest

/-! ### Files of sections -/

/-- A list that is not empty is its first part and what follows it. -/
theorem outcome_list_cons_iff {a : α} {as : List α} :
    (Grammar.list e).outcome c = some (a :: as, last) ↔
      ∃ mid, e.outcome c = some (a, mid) ∧
        (Grammar.gap.right e).many.outcome mid = some (as, last) := by
  have hseq : (e.seq (Grammar.gap.right e).many).outcome c = some ((a, as), last) ↔
      ∃ mid, e.outcome c = some (a, mid) ∧
        (Grammar.gap.right e).many.outcome mid = some (as, last) :=
    Peg.outcome_seq_eq_some_iff
  rw [← hseq, Grammar.list]
  generalize e.seq (Grammar.gap.right e).many = rounds
  rw [Peg.outcome, Peg.outcome]
  cases rounds.outcome c with
  | none => simp
  | some x => simp [Prod.ext_iff]

/-- A section and the line breaks behind it lead to where no layout is. -/
theorem outcome_sectionBlock {x : Located Section}
    (h : Grammar.anySection.outcome c = some (x, next)) :
    ∃ mid, sectionBlock.outcome c = some (x, mid) ∧ skipGap mid.rest = skipLayout next.rest := by
  obtain ⟨us, mid, hbreaks, hmid⟩ := outcome_gap_lineBreaks next
  refine ⟨mid, ?_, hmid⟩
  rw [sectionBlock, Grammar.pair, Peg.outcome, Peg.outcome, h, Option.bind_some, hbreaks]
  rfl

/-- The end of a file is read where nothing but a gap is left. -/
theorem exists_outcome_end_iff :
    (∃ u last, (Grammar.gap.right (Peg.rule RuleName.endOfInput .ends)).outcome c =
      some (u, last)) ↔ skipGap c.rest = [] := by
  obtain ⟨d, hgap, hd⟩ := outcome_gap c
  rw [Peg.outcome_right_of_some hgap, ← hd, Peg.outcome, Peg.outcome]
  by_cases h : d.rest = [] <;> simp [h]

/-- A file is read from behind the layout at its start, up to where nothing but a gap is left. -/
theorem exists_outcome_file_iff_behind (w : List Char) : ∃ c u, (Cursor.ofText w).Passes u c ∧
    c.rest = skipLayout w ∧ ∀ xs,
      (∃ last, Grammar.file.outcome (Cursor.ofText w) = some (xs, last)) ↔
        ∃ last, (Grammar.list sectionBlock).outcome c = some (xs, last) ∧ skipGap last.rest = [] := by
  obtain ⟨c₁, hgap, h₁⟩ := outcome_gap (Cursor.ofText w)
  obtain ⟨us, c₂, hlist, h₂⟩ :=
    outcome_list_lineBreak (c := c₁) (h₁ ▸ settled_skip isSpace false w)
  obtain ⟨c₃, hgap', h₃⟩ := outcome_gap c₂
  obtain ⟨v₁, hv₁, -⟩ := Peg.outcome_passes hgap
  obtain ⟨v₂, hv₂, -⟩ := Peg.outcome_passes hlist
  obtain ⟨v₃, hv₃, -⟩ := Peg.outcome_passes hgap'
  have hbody (xs : List (Located Section)) (last : Cursor) :
      Grammar.file.outcome (Cursor.ofText w) = some (xs, last) ↔
        ∃ u, body.outcome c₃ = some ((xs, u), last) := by
    have hfile : Grammar.file = (Peg.rule .program
        (Grammar.gap.right (Grammar.pair (Grammar.list Grammar.lineBreak) body))).map
          fun r ↦ r.value.2.1 := rfl
    rw [hfile, Peg.outcome, Peg.outcome, Peg.outcome_right_of_some hgap, Grammar.pair, Peg.outcome,
      hlist, Option.bind_some, Peg.outcome_right_of_some hgap']
    cases body.outcome c₃ with
    | none => simp
    | some x => simp [Prod.ext_iff, eq_comm]
  have hrest : c₃.rest = skipLayout w := by
    rw [h₃, h₂, h₁, skipLayout_skipGap]
    rfl
  refine ⟨c₃, _, (hv₁.append hv₂).append hv₃, hrest, fun xs ↦ ?_⟩
  simp only [hbody]
  constructor
  · rintro ⟨last, u, h⟩
    obtain ⟨mid, hsections, hend⟩ := Peg.outcome_seq_eq_some_iff.mp h
    exact ⟨mid, hsections, exists_outcome_end_iff.mp ⟨_, _, hend⟩⟩
  · rintro ⟨mid, hsections, hend⟩
    obtain ⟨u, last, hend⟩ := exists_outcome_end_iff.mpr hend
    exact ⟨last, u, Peg.outcome_seq_eq_some_iff.mpr ⟨mid, hsections, hend⟩⟩

/-- A file that begins like a section is read from its start. -/
theorem exists_outcome_file_iff (hw : BeginsSmall w) {xs : List (Located Section)} :
    (∃ last, Grammar.file.outcome (Cursor.ofText w) = some (xs, last)) ↔
      ∃ last, (Grammar.list sectionBlock).outcome (Cursor.ofText w) = some (xs, last) ∧
        skipGap last.rest = [] := by
  obtain ⟨c, u, hpasses, hrest, hfile⟩ := exists_outcome_file_iff_behind w
  obtain rfl : c = Cursor.ofText w :=
    hpasses.eq_of_rest_eq (hrest.trans (skip_of_settled hw.settled))
  exact hfile xs

/-- A file that begins like a section and has one section is that section, but for layout behind it.
-/
theorem outcome_of_sections (hw : BeginsSmall w) {x : Located Section}
    (h : sections w = .ok [x]) : ∃ next,
      Grammar.anySection.outcome (Cursor.ofText w) = some (x, next) ∧
        skipLayout next.rest = [] := by
  have hread := eq_ok_of_mapError_eq_ok h
  rw [Peg.read_eq_ok_iff rfl, exists_outcome_file_iff hw] at hread
  obtain ⟨last, hlist, hlast⟩ := hread
  obtain ⟨mid, hblock, hmany⟩ := outcome_list_cons_iff.mp hlist
  have hmid : mid = last := by
    cases hround : (Grammar.gap.right sectionBlock).outcome mid with
    | none =>
      rw [Peg.outcome_many_of_none hround] at hmany
      exact (Prod.mk.inj (Option.some.inj hmany)).2
    | some y =>
      obtain ⟨ys, last', hrest⟩ := Peg.exists_outcome_many (Grammar.gap.right sectionBlock) y.2
      rw [Peg.outcome_many_of_some rfl hround hrest] at hmany
      cases hmany
  cases hsection : Grammar.anySection.outcome (Cursor.ofText w) with
  | none =>
    rw [sectionBlock, Grammar.pair, Peg.outcome, Peg.outcome, hsection] at hblock
    cases hblock
  | some y =>
    obtain ⟨mid', hblock', hmid'⟩ := outcome_sectionBlock hsection
    obtain ⟨rfl, rfl⟩ := Prod.mk.inj (Option.some.inj (hblock'.symm.trans hblock))
    exact ⟨y.2, rfl, by rw [← hmid', hmid, hlast]⟩

variable {ws : List (List Char)} {s : Section} {ss : List Section}

/-- A section and the line break behind it are read wherever they stand. -/
theorem ReadsAs.exists_sectionBlock (h : ReadsAs w s) (hmore : NextLine more) (pos : Nat) :
    ∃ y mid, sectionBlock.outcome ⟨w ++ more, pos⟩ = some (y, mid) ∧
      skipGap mid.rest = skipLayout more ∧ SameSection s y.value := by
  obtain ⟨y, next, hread, hnext, hsame⟩ := h.reads more pos hmore
  obtain ⟨mid, hblock, hmid⟩ := outcome_sectionBlock hread
  exact ⟨y, mid, hblock, hmid.trans hnext, hsame⟩

/-- Behind the first of several sections stand a line break and the others, or nothing. -/
theorem exists_nextLine (h : List.Forall₂ ReadsAs ws ss) (w : List Char) :
    ∃ more, ['\n'].intercalate (w :: ws) = w ++ more ∧ NextLine more ∧
      skipLayout more = ['\n'].intercalate ws := by
  cases h with
  | nil => exact ⟨[], by simp, .inl rfl, rfl⟩
  | @cons w' _ ws _ hw' _ =>
    have hbegins : BeginsSmall (['\n'].intercalate (w' :: ws)) := by
      cases ws with
      | nil => simpa using hw'.begins
      | cons w'' ws =>
        rw [List.intercalate_cons_cons, List.append_assoc]
        exact hw'.begins.append _
    refine ⟨'\n' :: ['\n'].intercalate (w' :: ws), ?_, .inr ⟨_, rfl, hbegins⟩, ?_⟩
    · rw [List.intercalate_cons_cons, List.append_assoc]
      rfl
    · rw [skipLayout_break rfl]
      exact skip_of_settled hbegins.settled

/-- Sections on lines of their own are read one after another. -/
theorem exists_outcome_many_sectionBlock (h : List.Forall₂ ReadsAs ws ss)
    (hc : skipGap c.rest = ['\n'].intercalate ws) :
    ∃ ys last, (Grammar.gap.right sectionBlock).many.outcome c = some (ys, last) ∧
      skipGap last.rest = [] ∧ List.Forall₂ (fun s y ↦ SameSection s y.value) ss ys := by
  induction h generalizing c with
  | nil =>
    obtain ⟨⟨rest, pos⟩, hgap, hd⟩ := outcome_gap c
    obtain rfl : rest = [] := hd.trans hc
    have hnone : (Grammar.gap.right sectionBlock).outcome c = none :=
      (Peg.outcome_right_of_some hgap).trans (Refuses.nil rfl pos)
    exact ⟨[], c, Peg.outcome_many_of_none hnone, hc, .nil⟩
  | @cons w _ ws _ hw hws ih =>
    obtain ⟨⟨rest, pos⟩, hgap, hd⟩ := outcome_gap c
    obtain ⟨more, hfirst, hmore, hothers⟩ := exists_nextLine hws w
    obtain rfl : rest = w ++ more := hd.trans (hc.trans hfirst)
    obtain ⟨y, mid, hblock, hmid, hsame⟩ := hw.exists_sectionBlock hmore pos
    obtain ⟨ys, last, hmany, hlast, hsames⟩ := ih (hmid.trans hothers)
    exact ⟨y :: ys, last, Peg.outcome_many_of_some rfl
      ((Peg.outcome_right_of_some hgap).trans hblock) hmany, hlast, .cons hsame hsames⟩

/-- A file of sections on lines of their own has just these sections. -/
theorem sections_intercalate (h : List.Forall₂ ReadsAs ws ss) (hne : ws ≠ []) :
    ∃ ys, sections (['\n'].intercalate ws) = .ok ys ∧
      List.Forall₂ (fun s y ↦ SameSection s y.value) ss ys := by
  cases h with
  | nil => exact absurd rfl hne
  | @cons w _ ws _ hw hws =>
    obtain ⟨more, hfirst, hmore, hothers⟩ := exists_nextLine hws w
    obtain ⟨y, mid, hblock, hmid, hsame⟩ := hw.exists_sectionBlock hmore 0
    obtain ⟨ys, last, hmany, hlast, hsames⟩ :=
      exists_outcome_many_sectionBlock hws (hmid.trans hothers)
    have hlist : (Grammar.list sectionBlock).outcome (Cursor.ofText (w ++ more)) =
        some (y :: ys, last) := outcome_list_cons_iff.mpr ⟨mid, hblock, hmany⟩
    have hfile := (exists_outcome_file_iff (hw.begins.append more)).mpr ⟨last, hlist, hlast⟩
    refine ⟨y :: ys, ?_, .cons hsame hsames⟩
    rw [hfirst, sections, (Peg.read_eq_ok_iff rfl).mpr hfile]
    rfl

end TapeMachine.Definition
