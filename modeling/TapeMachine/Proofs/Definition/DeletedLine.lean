import TapeMachine.Proofs.Definition.Fork
import TapeMachine.Proofs.Definition.TableReading

/-!
# Files without a line

A file without the line of a rule has the other rules, and its other sections say the same, if there
is a rule behind the one that is deleted (`exists_sections_deleteLine`). For the texts fork at the
end of the line before: the reader of the one looks for the rule there, and the reader of the other
for the rule behind it.
-/

namespace TapeMachine.Definition

open Peg (Cursor never)

/-! ### Lines -/

/-- The text up to the last line break in it. -/
def upToBreak (text : List Char) : List Char :=
  (text.reverse.dropWhile fun c ↦ !Grammar.isBreak c).reverse

/-- The text without the line break at its start. -/
def dropBreak : List Char → List Char
  | '\r' :: '\n' :: text => text
  | _ :: text => text
  | [] => []

/-- The text behind its first line. -/
def behindLine (text : List Char) : List Char :=
  dropBreak (text.dropWhile fun c ↦ !Grammar.isBreak c)

/-- The text without the line in which a place is, and without the line break behind that line. -/
def deleteLine (text : List Char) (pos : Nat) : List Char :=
  upToBreak (text.take pos) ++ behindLine (text.drop pos)

example : deleteLine "a\nbc\r\nd".toList 3 = "a\nd".toList := by decide

/-- A line between two line breaks, with a place in it. -/
structure MidLine where
  /-- What stands before the line. -/
  before : List Char
  /-- The line break that ends the line before. -/
  opens : Char
  /-- The line up to the place. -/
  left : List Char
  /-- The line from the place on. -/
  right : List Char
  /-- The line break that ends the line. -/
  ends : Char
  /-- What stands behind the line. -/
  after : List Char
  isBreak_opens : Grammar.isBreak opens = true
  isBreak_left : ∀ a ∈ left, Grammar.isBreak a = false
  isBreak_right : ∀ a ∈ right, Grammar.isBreak a = false
  isBreak_ends : Grammar.isBreak ends = true

namespace MidLine

/-- The text from the start of the line on. -/
def rest (l : MidLine) : List Char := l.left ++ (l.right ++ l.ends :: l.after)

/-- The text in which the line is. -/
def text (l : MidLine) : List Char := l.before ++ l.opens :: l.rest

/-- The place in the line. -/
def pos (l : MidLine) : Nat := (l.before ++ l.opens :: l.left).length

/-- The line is deleted with its line break. -/
theorem deleteLine_text (l : MidLine) :
    deleteLine l.text l.pos = l.before ++ l.opens :: dropBreak (l.ends :: l.after) := by
  have hline : ∀ a ∈ l.left.reverse, (!Grammar.isBreak a) = true := by simpa using l.isBreak_left
  have hbefore : upToBreak (l.before ++ l.opens :: l.left) = l.before ++ [l.opens] := by
    have hreverse : (l.before ++ l.opens :: l.left).reverse =
        l.left.reverse ++ l.opens :: l.before.reverse := by simp
    rw [upToBreak, hreverse, List.dropWhile_append_of_pos hline,
      List.dropWhile_cons_of_neg (by simp [l.isBreak_opens])]
    simp
  have hbehind : behindLine (l.right ++ l.ends :: l.after) = dropBreak (l.ends :: l.after) := by
    rw [behindLine, List.dropWhile_append_of_pos (by simpa using l.isBreak_right),
      List.dropWhile_cons_of_neg (by simp [l.isBreak_ends])]
  have htext : l.text = (l.before ++ l.opens :: l.left) ++ (l.right ++ l.ends :: l.after) := by
    simp [text, rest]
  rw [deleteLine, htext, pos, List.take_left, List.drop_left, hbefore, hbehind]
  simp

end MidLine

theorem dropBreak_cons_cons (b c : Char) (w : List Char) :
    dropBreak (b :: c :: w) = if b = '\r' ∧ c = '\n' then w else c :: w := by
  by_cases h : b = '\r' ∧ c = '\n'
  · obtain ⟨rfl, rfl⟩ := h
    rfl
  · rw [if_neg h, dropBreak]
    rintro _ rfl heq
    exact h ⟨rfl, (List.cons.inj heq).1⟩

/-- What stands behind the text stays behind it. -/
theorem dropBreak_append (b : Char) {w : List Char} (hw : w ≠ []) (more : List Char) :
    dropBreak (b :: (w ++ more)) = dropBreak (b :: w) ++ more := by
  obtain ⟨c, w, rfl⟩ := List.exists_cons_of_ne_nil hw
  rw [List.cons_append, dropBreak_cons_cons, dropBreak_cons_cons]
  split <;> rfl

/-- A last character that is no line break stays the last. -/
theorem getLast?_dropBreak (b : Char) {w : List Char} {c : Char} (hw : w.getLast? = some c)
    (hc : Grammar.isBreak c = false) : (dropBreak (b :: w)).getLast? = some c := by
  cases w with
  | nil => cases hw
  | cons a w =>
    rw [dropBreak_cons_cons]
    split
    · next hbreak =>
      rw [List.getLast?_cons, Option.some.injEq] at hw
      cases hlast : w.getLast? with
      | none =>
        rw [hlast, Option.getD_none, hbreak.2] at hw
        rw [← hw] at hc
        cases hc
      | some d => rw [← hw, hlast, Option.getD_some]
    · exact hw

theorem skipLayout_dropBreak {b : Char} (hb : Grammar.isBreak b = true) (text : List Char) :
    skipLayout (dropBreak (b :: text)) = skipLayout (b :: text) := by
  unfold dropBreak
  split
  · next heq =>
    obtain ⟨rfl, rfl⟩ := List.cons.inj heq
    rw [skipLayout_break rfl, skipLayout_break rfl]
  · next heq =>
    obtain ⟨rfl, rfl⟩ := List.cons.inj heq
    rw [skipLayout_break hb]
  · next heq => cases heq

/-! ### Blanks around a text -/

/-- In a longer text the line is deleted the same. -/
theorem MidLine.deleteLine_within (l : MidLine) (hne : l.after ≠ []) (before after : List Char) :
    deleteLine (before ++ (l.text ++ after)) (before.length + l.pos) =
      before ++ (deleteLine l.text l.pos ++ after) := by
  let longer : MidLine := { l with before := before ++ l.before, after := l.after ++ after }
  have htext : before ++ (l.text ++ after) = longer.text := by simp [longer, text, rest]
  have hpos : before.length + l.pos = longer.pos := by simp [longer, pos]
  rw [htext, hpos, longer.deleteLine_text, l.deleteLine_text]
  simp [longer, dropBreak_append _ hne]

theorem isBlank_of_isBreak {b : Char} (hb : Grammar.isBreak b = true) : Text.isBlank b = true :=
  isBlank_of_isLayout (isLayout_of_isBreak hb)

/-- A trimmed text begins before the line and ends behind it. -/
theorem MidLine.exists_ends_of_trimmed {l : MidLine} (h : Text.Trimmed l.text) :
    (∃ a v, l.before = a :: v) ∧ ∃ c, l.after.getLast? = some c ∧ Text.isBlank c = false := by
  constructor
  · refine List.exists_cons_of_ne_nil fun hnil ↦ ?_
    have hblank := h.head l.opens (by rw [text, hnil]; rfl)
    rw [isBlank_of_isBreak l.isBreak_opens] at hblank
    cases hblank
  · have hend := h.last (l.after.getLast?.getD l.ends) (by
      simp [text, rest, List.getLast?_append, List.getLast?_cons])
    cases hlast : l.after.getLast? with
    | none =>
      rw [hlast, Option.getD_none, isBlank_of_isBreak l.isBreak_ends] at hend
      cases hend
    | some c =>
      rw [hlast, Option.getD_some] at hend
      exact ⟨c, rfl, hend⟩

/-- Without the line a trimmed text is trimmed. -/
theorem MidLine.trimmed_deleteLine {l : MidLine} (h : Text.Trimmed l.text) :
    Text.Trimmed (deleteLine l.text l.pos) := by
  obtain ⟨⟨a, v, hfirst⟩, c, hlast, hc⟩ := exists_ends_of_trimmed h
  rw [l.deleteLine_text]
  constructor
  · intro b hb
    rw [hfirst] at hb
    exact h.head b (by rw [text, hfirst]; exact hb)
  · intro b hb
    have hbreak : Grammar.isBreak c = false :=
      Bool.eq_false_iff.mpr fun hbreak ↦ Bool.eq_false_iff.mp hc (isBlank_of_isBreak hbreak)
    rw [List.getLast?_append, List.getLast?_cons, getLast?_dropBreak l.ends hlast hbreak] at hb
    obtain rfl : c = b := by simpa using hb
    exact hc

/-- A line within a file is not at its ends, so the blanks there are removed as before. -/
theorem MidLine.trim_deleteLine {source : List Char} (l : MidLine)
    (h : Text.trim source = l.text) :
    Text.trim (deleteLine source ((source.takeWhile Text.isBlank).length + l.pos)) =
      deleteLine l.text l.pos := by
  have htrimmed : Text.Trimmed l.text := h ▸ Text.trimmed_trim source
  obtain ⟨⟨a, v, hfirst⟩, c, hlast, -⟩ := exists_ends_of_trimmed htrimmed
  obtain ⟨blanks, hsource, hblanks⟩ := Text.exists_trimEnd_append (Text.trimStart source)
  have htext : source = source.takeWhile Text.isBlank ++ (l.text ++ blanks) := by
    rw [← h, Text.trim, ← hsource]
    exact List.takeWhile_append_dropWhile.symm
  have hafter : l.after ≠ [] := by
    intro hnil
    rw [hnil] at hlast
    cases hlast
  have hne : deleteLine l.text l.pos ≠ [] := by
    rw [l.deleteLine_text, hfirst]
    exact List.cons_ne_nil _ _
  have hlonger := l.deleteLine_within hafter (source.takeWhile Text.isBlank) blanks
  rw [← htext] at hlonger
  rw [hlonger, Text.trim_blanks_append fun c ↦ List.mem_takeWhile_imp,
    Text.trim_append (trimmed_deleteLine htrimmed) hne hblanks]

/-! ### Rules -/

variable {c next last : Cursor} {r z : Located RuleText}

/-- A text with line breaks has a last one. -/
theorem exists_last_break {text : List Char} (h : ∃ a ∈ text, Grammar.isBreak a = true) :
    ∃ u b g, text = u ++ b :: g ∧ Grammar.isBreak b = true ∧
      ∀ a ∈ g, Grammar.isBreak a = false := by
  induction text with
  | nil =>
    obtain ⟨a, ha, -⟩ := h
    cases ha
  | cons c text ih =>
    by_cases hrest : ∃ a ∈ text, Grammar.isBreak a = true
    · obtain ⟨u, b, g, rfl, hb, hg⟩ := ih hrest
      exact ⟨c :: u, b, g, rfl, hb, hg⟩
    · obtain ⟨a, ha, hbreak⟩ := h
      rcases List.mem_cons.mp ha with rfl | ha
      · exact ⟨[], a, text, rfl, hbreak, by simpa using hrest⟩
      · exact absurd ⟨a, ha, hbreak⟩ hrest

/-- A text with line breaks has a first one. -/
theorem exists_first_break {text : List Char} (h : ∃ a ∈ text, Grammar.isBreak a = true) :
    ∃ u b g, text = u ++ b :: g ∧ Grammar.isBreak b = true ∧
      ∀ a ∈ u, Grammar.isBreak a = false := by
  obtain ⟨a, ha, hbreak⟩ := h
  obtain ⟨g, b, u, htext, hb, hu⟩ := exists_last_break ⟨a, List.mem_reverse.mpr ha, hbreak⟩
  refine ⟨u.reverse, b, g.reverse, ?_, hb, by simpa using hu⟩
  rw [← List.reverse_reverse text, htext]
  simp

/-- The line of a rule begins behind a line break, with layout up to the rule. -/
theorem exists_line_of_outcome_ruleLine
    (h : (Grammar.gap.right ruleLine).outcome c = some (r, next)) :
    ∃ u b g d, Grammar.isBreak b = true ∧ (∀ a ∈ g, Grammar.isBreak a = false) ∧
      c.Passes (u ++ b :: g) d ∧ skipLayout c.rest = d.rest ∧ r.span.start = d.pos ∧
        Grammar.transition.outcome d = some (r, next) := by
  obtain ⟨a, ha, hbreak⟩ := isBreak_of_outcome_ruleLine h
  obtain ⟨d, w, hd, hw, hexists, hout⟩ := outcome_ruleLine_of_isBreak ha hbreak
  obtain ⟨u, b, g, rfl, hb, hg⟩ := exists_last_break hexists
  rw [hout] at h
  refine ⟨u, b, g, d, hb, hg, hw, hd.symm, ?_, h⟩
  obtain ⟨x, -, rfl⟩ := Peg.outcome_rule_map_eq_some_iff.mp h
  rfl

/-- If a line ends behind a rule, it is the line of the rule. -/
theorem exists_break_of_outcome_transition {a : Char} {d : Cursor}
    (h : Grammar.transition.outcome d = some (r, next))
    (ha : (skipGap next.rest).head? = some a) (hbreak : Grammar.isBreak a = true) :
    ∃ line b x, d.rest = line ++ b :: x ∧ (∀ a ∈ line, Grammar.isBreak a = false) ∧
      Grammar.isBreak b = true ∧ skipGap next.rest = b :: x := by
  have hgap : skipGap next.rest <:+ d.rest :=
    (skip_suffix isSpace false next.rest).trans (suffix_of_outcome h)
  obtain ⟨line, b, x, hrest, hb, hline⟩ :=
    exists_first_break ⟨a, hgap.subset (List.mem_of_mem_head? ha), hbreak⟩
  -- The rule and the gap behind it come to the break, as neither has one in it.
  have htracks := tracks_forked hb (x := x) (y := x) (e := Grammar.transition) rfl rfl rfl d d
    ⟨line, hrest, hrest⟩
  rw [h] at htracks
  obtain ⟨r', next', hnext', -, hforked⟩ := htracks.exists_of_some
  obtain ⟨-, rfl⟩ := Prod.mk.inj (Option.some.inj hnext')
  obtain ⟨w, hw, -⟩ := hforked.behind_gap hb
  refine ⟨line, b, x, hrest, hline, hb, ?_⟩
  obtain ⟨v, hv⟩ := hgap
  rw [hw, hrest, ← List.append_assoc] at hv
  have hword : v ++ w = line := List.append_cancel_right hv
  cases w with
  | nil => exact hw
  | cons c w =>
    rw [hw] at ha
    obtain rfl : c = a := Option.some.inj ha
    rw [hline c (hword ▸ List.mem_append_right v List.mem_cons_self)] at hbreak
    cases hbreak

/-! ### Files -/

variable {stop : Char} {x y t t' : List Char} {before after : List (Located Section)}
  {front back : List (Located RuleText)} {place : Cursor} {s : Located Section}

/-- If the texts fork behind a place in the table, the reader comes to a place in the table of the
other text as well. -/
theorem ComesTo.exists_forked (h : ComesTo t before front place)
    (hstop : Grammar.isBreak stop = true) (hfork : Forked stop x y t t')
    (hplace : ¬place.rest <:+ x) : ∃ before' front' place', ComesTo t' before' front' place' ∧
      SameSections before before' ∧ List.Forall₂ SameRule front front' ∧
        Forked stop x y place.rest place'.rest := by
  obtain ⟨start, table, first, hpasses, hrest, hbefore, hhead, hfront⟩ := h
  obtain ⟨start', w', hpasses', hrest', -⟩ := exists_outcome_file_iff_behind t'
  have htable : place.rest <:+ skipGap table.rest :=
    hfront.suffix.trans (suffix_skipGap_of_outcome hhead)
  have hstart : Forked stop x y start.rest start'.rest := by
    rw [hrest, hrest']
    refine (hfork.behind_layout hstop).resolve_right fun hpast ↦ hplace ?_
    have hlayout : start.rest <:+ x := hrest.trans hpast.1 ▸ skip_suffix isLayout false x
    exact (htable.trans (skip_suffix isSpace false _)).trans (hbefore.suffix.trans hlayout)
  obtain ⟨before', table', hbefore', hsame, htables⟩ := hbefore.exists_of_tracks
    (tracks_block_forked hstop) (fun _ _ _ ho hpast ↦ (skip_suffix isSpace false _).trans
      ((suffix_skipGap_of_outcome ho).trans hpast)) (fun hpast ↦ hplace (htable.trans hpast))
    (hstart.behind_gap hstop)
  have hheads := tracks_gap_right (tracks_forked hstop (x := x) (y := y)
    (e := (Peg.literal "transitions:").right Grammar.gap) rfl rfl rfl) table table' htables
  rw [← tableHead, hhead] at hheads
  obtain ⟨u, first', hhead', -, hfirst⟩ := hheads.exists_of_some
  obtain ⟨front', place', hfront', hrules, hplaces⟩ := hfront.exists_of_tracks
    (tracks_behindGap_forked hstop (tracks_ruleLine_forked hstop))
    (fun _ _ _ ho hpast ↦ (suffix_of_outcome ho).trans hpast) hplace hfirst
  have hcomes := ComesTo.intro start' table' first' hpasses' hrest' hbefore' hhead' hfront'
  exact ⟨before', front', place', hcomes, hsame, hrules, hplaces⟩

/-- Where a line ends before the fork, and the fork before the next rule, the reader of the other
text goes on behind the fork. -/
theorem GoesOn.exists_forked {place' : Cursor} {a : Char}
    (h : GoesOn next (z :: back) after) (hstop : Grammar.isBreak stop = true)
    (hfork : Forked stop x y place.rest place'.rest) (ha : (skipGap place.rest).head? = some a)
    (hbreak : Grammar.isBreak a = true) (hx : Past x place.rest)
    (hy : skipLayout y = skipLayout next.rest) : ∃ back' after', GoesOn place' back' after' ∧
      List.Forall₂ SameRule (z :: back) back' ∧ SameSections after after' := by
  obtain ⟨next₂, hz, hback⟩ := goesOn_cons_iff.mp h
  obtain ⟨c, hc, hbreak₂⟩ := isBreak_of_outcome_ruleLine hz
  obtain ⟨d, -, hd, -, -, hrule⟩ := outcome_ruleLine_of_isBreak hc hbreak₂
  obtain ⟨d', -, hd', -, -, hrule'⟩ := outcome_ruleLine_of_isBreak
    ((alongside_forked.head (hfork.behind_gap hstop)).symm.trans ha) hbreak
  have hpast := (hfork.behind_layout hstop).resolve_left fun hleft ↦ hleft.not_suffix hx
  have hleft : d.rest = d'.rest := by rw [hd, hd', hpast.2, hy]
  obtain ⟨z', next', hz', hsame, hrest⟩ :=
    Peg.exists_outcome_same (hrule.symm.trans hz) rfl hleft
  obtain ⟨back', after', hgo, hrules, hsections⟩ := hback.exists_same hrest
  exact ⟨z' :: back', after', goesOn_cons_iff.mpr ⟨next', hrule'.trans hz', hgo⟩,
    .cons (alike_transition hsame) hrules, hsections⟩

/-- A rule that is not the last stands in a line between two line breaks. The reader that looks for
the rule passes layout up to it, and the reader that looks for the next one passes layout from the
end of the line on. -/
theorem ComesTo.exists_midLine (h : ComesTo t before front place)
    (hr : (Grammar.gap.right ruleLine).outcome place = some (r, next))
    (hz : (Grammar.gap.right ruleLine).outcome next = some (z, last)) :
    ∃ l : MidLine, t = l.text ∧ r.span.start = l.pos ∧
      Past l.rest place.rest ∧ ¬place.rest <:+ l.rest ∧
        skipLayout (dropBreak (l.ends :: l.after)) = skipLayout next.rest := by
  obtain ⟨u, b, g, d, hb, hg, hline, hd, hstart, hrule⟩ := exists_line_of_outcome_ruleLine hr
  obtain ⟨a, ha, hbreak⟩ := isBreak_of_outcome_ruleLine hz
  obtain ⟨line, b', x, hrest, hnone, hb', hnext⟩ :=
    exists_break_of_outcome_transition hrule ha hbreak
  obtain ⟨p, hp⟩ := h.exists_passes
  have hpasses := hp.append hline
  refine ⟨⟨p ++ u, b, g, line, b', x, hb, hg, hnone, hb'⟩, ?_, ?_, ?_, ?_, ?_⟩
  · have htext : t = (p ++ (u ++ b :: g)) ++ d.rest := hpasses.rest_eq
    simp [htext, hrest, MidLine.text, MidLine.rest]
  · rw [hstart, hpasses.pos_eq]
    simp [Cursor.ofText, MidLine.pos]
  · rw [Past, hd, hrest]
    exact List.suffix_append g _
  · intro hsuffix
    have hlength := hsuffix.length_le
    rw [hline.rest_eq, hrest] at hlength
    simp only [MidLine.rest, List.length_append, List.length_cons] at hlength
    omega
  · rw [skipLayout_dropBreak hb', ← hnext, skipLayout_skipGap]

/-- A rule that is not the last stands in a line between two line breaks. Without this line the file
has the other rules, and its other sections say the same. -/
theorem exists_sections_deleteLine (hs : s.value = .transitions (front ++ r :: z :: back))
    (h : sections t = .ok (before ++ s :: after)) :
    ∃ l : MidLine, t = l.text ∧ r.span.start = l.pos ∧
      ∃ secs, sections (deleteLine l.text l.pos) = .ok secs ∧
        SameSections (before ++ ⟨.transitions (front ++ z :: back), s.span⟩ :: after) secs := by
  obtain ⟨place, hcomes, hgoes⟩ := exists_comesTo_iff.mp ⟨s, hs, h⟩
  obtain ⟨next, hr, hgoes⟩ := goesOn_cons_iff.mp hgoes
  obtain ⟨last, hz, -⟩ := goesOn_cons_iff.mp hgoes
  obtain ⟨a, ha, hbreak⟩ := isBreak_of_outcome_ruleLine hr
  obtain ⟨l, htext, hpos, hpast, hplace, hbehind⟩ := hcomes.exists_midLine hr hz
  refine ⟨l, htext, hpos, ?_⟩
  obtain ⟨before', front', place', hcomes', hbefore, hfront, hfork⟩ :=
    hcomes.exists_forked l.isBreak_opens ⟨l.before, htext, l.deleteLine_text⟩ hplace
  obtain ⟨back', after', hgoes', hback, hafter⟩ :=
    hgoes.exists_forked l.isBreak_opens hfork ha hbreak hpast hbehind
  obtain ⟨s', hs', hsections⟩ := exists_comesTo_iff.mpr ⟨place', hcomes', hgoes'⟩
  refine ⟨_, hsections, List.rel_append hbefore (.cons ?_ hafter)⟩
  rw [hs']
  exact .transitions (List.rel_append hfront hback)

end TapeMachine.Definition
