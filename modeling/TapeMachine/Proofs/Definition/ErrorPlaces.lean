import TapeMachine.Definition.Excerpt
import TapeMachine.Proofs.Definition.Verdict
import TapeMachine.Proofs.Text.Trim

/-!
# Where errors point to

The places of an error lie in the file without the blank characters at its ends, and they are
counted from there. So line feeds before a file change nothing about an error, and its lines are
short by the line feeds among the blanks at the start of the file (`parse_error_behind_blanks`).
-/

namespace TapeMachine

/-! ### The furthest place of a refusal -/

namespace Peg

variable {ρ α : Type} {total rounds : Nat}

/-- The place behind a match and the furthest place of the misses lie in a text of this length. -/
def Reply.Within (total : Nat) : Reply ρ α → Prop
  | .matched _ next m => next.pos + next.rest.length = total ∧ m.pos ≤ total
  | .refused m => m.pos ≤ total

theorem Misses.pos_add_le {m : Misses ρ} {name : ρ} {pos before : Nat} (hm : m.pos ≤ total)
    (hpos : pos ≤ total) : (m.add name pos before).pos ≤ total := by
  unfold Misses.add
  split
  · exact hm
  · split
    · exact hpos
    · split
      · exact hpos
      · exact hm

private theorem within_scanMany {one : Cursor → Misses ρ → Reply ρ α}
    (h : ∀ c m, c.pos + c.rest.length = total → m.pos ≤ total → (one c m).Within total)
    (held : List α) (c : Cursor) (m : Misses ρ) (hc : c.pos + c.rest.length = total)
    (hm : m.pos ≤ total) : (scanMany one rounds held c m).Within total := by
  induction rounds generalizing held c m with
  | zero => exact ⟨hc, hm⟩
  | succ rounds ih =>
    have hone := h c m hc hm
    rw [scanMany]
    cases hreply : one c m with
    | matched a next m' =>
      rw [hreply] at hone
      exact ih _ next m' hone.1 hone.2
    | refused m' =>
      rw [hreply] at hone
      exact ⟨hc, hone⟩

/-- No scan comes to a place behind the end of its text. -/
theorem within_scan (e : Peg ρ α) {c : Cursor} {m : Misses ρ}
    (hc : c.pos + c.rest.length = total) (hm : m.pos ≤ total) :
    (e.scan rounds c m).Within total := by
  induction e generalizing c m with
  | literal text =>
    rw [scan]
    split
    · next rest hdrop =>
      have hrest := dropText?_eq_some_iff.mp hdrop
      have hlength : c.rest.length = text.length + rest.length := by
        rw [hrest, List.length_append, String.length_toList]
      exact ⟨by simp only; omega, hm⟩
    · exact hm
  | satisfying p =>
    rw [scan]
    split
    · exact hm
    · next a rest hrest =>
      rw [hrest, List.length_cons] at hc
      split
      · exact ⟨by simp only; omega, hm⟩
      · exact hm
  | ends =>
    rw [scan]
    split
    · exact ⟨hc, hm⟩
    · exact hm
  | seq first second ih ih' =>
    have hfirst := ih hc hm
    rw [scan]
    cases hx : first.scan rounds c m with
    | refused m₁ =>
      rw [hx] at hfirst
      exact hfirst
    | matched a next m₁ =>
      rw [hx] at hfirst
      have hsecond := ih' hfirst.1 hfirst.2
      simp only
      cases hy : second.scan rounds next m₁ with
      | refused m₂ =>
        rw [hy] at hsecond
        exact hsecond
      | matched b last m₂ =>
        rw [hy] at hsecond
        exact hsecond
  | choice first second ih ih' =>
    have hfirst := ih hc hm
    rw [scan]
    cases hx : first.scan rounds c m with
    | refused m₁ =>
      rw [hx] at hfirst
      exact ih' hc hfirst
    | matched a next m₁ =>
      rw [hx] at hfirst
      exact hfirst
  | optional e ih =>
    have he := ih hc hm
    rw [scan]
    cases hx : e.scan rounds c m with
    | refused m₁ =>
      rw [hx] at he
      exact ⟨hc, he⟩
    | matched a next m₁ =>
      rw [hx] at he
      exact he
  | many e ih => exact within_scanMany (fun _ _ ↦ ih) [] c m hc hm
  | without e ih =>
    rw [scan]
    split
    · exact hm
    · exact ⟨hc, hm⟩
  | map f e ih =>
    have he := ih hc hm
    rw [scan_map]
    cases hx : e.scan rounds c m with
    | refused m₁ =>
      rw [hx] at he
      exact he
    | matched a next m₁ =>
      rw [hx] at he
      exact he
  | rule name e ih =>
    have he := ih hc hm
    rw [scan]
    cases hx : e.scan rounds c m with
    | refused m₁ =>
      rw [hx] at he
      exact Misses.pos_add_le he (by omega)
    | matched a next m₁ =>
      rw [hx] at he
      exact he

/-- A text is refused at a place in it or at its end. -/
theorem pos_le_length_of_read {e : Peg ρ α} {text : List Char} {m : Misses ρ}
    (h : e.read text = .error m) : m.pos ≤ text.length := by
  have hscan : (e.scan (text.length + 1) (.ofText text) .none).Within text.length :=
    within_scan e (Nat.zero_add _) (Nat.zero_le _)
  rw [read] at h
  cases hx : e.scan (text.length + 1) (.ofText text) .none with
  | matched a next m' =>
    rw [hx] at h
    cases h
  | refused m' =>
    rw [hx] at h hscan
    cases h
    exact hscan

end Peg

namespace Definition

/-! ### The places of an error -/

/-- The positions that an error has in its file: one, or the two ends of a stretch. -/
def Error.positions : Error → List Nat
  | unexpected pos _ => [pos]
  | faulty _ span => [span.start, span.stop]
  | missing _ | finding _ => []

theorem mem_of_mem_redefined {rules : List (Located Rule)} {earlier : List Trigger}
    {r : Located Rule} (h : r ∈ redefined earlier rules) : r ∈ rules := by
  induction rules generalizing earlier with
  | nil => cases h
  | cons r' rules ih =>
    rw [redefined] at h
    split at h
    · rcases List.mem_cons.mp h with rfl | h
      · exact List.mem_cons_self
      · exact List.mem_cons_of_mem _ (ih h)
    · exact List.mem_cons_of_mem _ (ih h)

theorem exists_of_mem_forall₂ {ts : List (Located RuleText)} {rules : List (Located Rule)}
    (h : List.Forall₂ ShowsRule ts rules) {r : Located Rule} (hr : r ∈ rules) :
    ∃ t ∈ ts, ShowsRule t r := by
  induction h with
  | nil => cases hr
  | cons hshows _ ih =>
    rcases List.mem_cons.mp hr with rfl | hr
    · exact ⟨_, List.mem_cons_self, hshows⟩
    · obtain ⟨t, ht, hshows⟩ := ih hr
      exact ⟨t, List.mem_cons_of_mem _ ht, hshows⟩

/-- The rules of a draft stand in the sections that it gathers. -/
theorem Draft.Gathers.exists_ruleText {d : Draft} {secs : List (Located Section)}
    {rules : List (Located Rule)} (h : d.Gathers secs) (hrules : d.rules = some rules)
    {r : Located Rule} (hr : r ∈ rules) : ∃ t ∈ ruleTextsOf secs, ShowsRule t r := by
  obtain ⟨s, hs, hkind⟩ := h.heard .transitions (by simp [has, hrules])
  have hheld := h.held s hs
  cases hv : s.value with
  | transitions ts =>
    rw [hv] at hheld
    obtain ⟨rules', hrules', hall⟩ := hheld
    obtain rfl := Option.some.inj (hrules'.symm.trans hrules)
    obtain ⟨t, ht, hshows⟩ := exists_of_mem_forall₂ hall hr
    refine ⟨t, List.mem_flatMap.mpr ⟨s, hs, ?_⟩, hshows⟩
    rw [hv]
    exact ht
  | _ => simp [hv, Section.kind] at hkind

/-- The places of an error lie in the file without the blanks at its ends, or at the end of it. -/
theorem positions_le_of_parse {source : String} {e : Error} (h : parse source = .error e) :
    ∀ p ∈ e.positions, p ≤ (Text.trim source.toList).length := by
  rw [parse] at h
  cases hread : Grammar.file.read (Text.trim source.toList) with
  | error m =>
    have hsections : sections (Text.trim source.toList) =
        .error (.unexpected m.pos (RuleName.inOrder m.rules)) := by
      rw [sections, hread]
      rfl
    rw [hsections] at h
    cases h
    intro p hp
    rw [List.mem_singleton.mp hp]
    exact Peg.pos_le_length_of_read hread
  | ok secs =>
    have hsections : sections (Text.trim source.toList) = .ok secs := by
      rw [sections, hread]
      rfl
    have hprogram : programOf secs = .error e := by
      rw [hsections] at h
      exact h
    obtain ⟨last, ho⟩ := (Peg.read_eq_ok_iff rfl).mp hread
    have hend : last.pos ≤ (Text.trim source.toList).length := by
      obtain ⟨w, hw, -⟩ := Peg.outcome_passes ho
      have hlength := hw.length_eq
      have hpos := hw.pos_eq
      simp only [Peg.Cursor.ofText] at hlength hpos
      omega
    have hparts := ascends_file _ _ _ ho
    obtain ⟨x, hverdict⟩ := exists_verdict hparts.ascending
    rw [hverdict.programOf_eq hparts.ascending] at hprogram
    subst hprogram
    cases hverdict with
    | faulty hp _ _ =>
      have hstart := hparts.within _ hp
      have hstop := hparts.stops _ hp
      simp only [Error.positions, List.mem_cons, List.not_mem_nil, or_false, forall_eq_or_imp,
        forall_eq]
      omega
    | missing => simp [Error.positions]
    | repeatedRule _ hd hp _ hr =>
      have hmem := mem_of_mem_redefined (hr ▸ List.mem_cons_self)
      obtain ⟨t, ht, hshows⟩ := hd.exists_ruleText hp.rules hmem
      have hrules := ascends_ruleTexts _ _ _ ho
      have hstart := hrules.within t ht
      have hstop := hrules.stops t ht
      rw [← hshows.span] at hstart hstop
      simp only [Error.positions, List.mem_cons, List.not_mem_nil, or_false, forall_eq_or_imp,
        forall_eq]
      omega
    | finding => simp [Error.positions]

/-! ### Text in front -/

/-- Where a place of a text comes to lie behind other characters: lower by their lines, and if it
was in the first line, further right by the characters of their last line. -/
def Place.behind (before : List Char) (p : Place) : Place :=
  ⟨p.line + before.count '\n',
    if p.line = 1 then p.column + indentAt before before.length else p.column⟩

/-- In the first line the characters of the last line in front count as well. -/
theorem indentAt_append (before text : List Char) (pos : Nat) :
    indentAt (before ++ text) (before.length + pos) =
      if '\n' ∈ text.take pos then indentAt text pos
      else indentAt text pos + indentAt before before.length := by
  have htake : (before ++ text).take (before.length + pos) = before ++ text.take pos :=
    List.take_length_add_append pos
  rw [indentAt, indentAt, indentAt, htake, List.take_length, List.reverse_append]
  by_cases hbreak : '\n' ∈ text.take pos
  · obtain ⟨ahead, line, hline⟩ := List.append_of_mem (List.mem_reverse.mpr hbreak)
    rw [if_pos hbreak, hline, List.append_assoc, List.cons_append, List.takeWhile_append,
      List.takeWhile_append]
    simp
  · have hall : ∀ c ∈ (text.take pos).reverse, decide (c ≠ '\n') = true := by
      intro c hc
      rw [decide_eq_true_eq]
      rintro rfl
      exact hbreak (List.mem_reverse.mp hc)
    rw [if_neg hbreak, List.takeWhile_append_of_pos hall, List.takeWhile_eq_self_iff.mpr hall,
      List.length_append]

/-- Characters in front of a text move its places. -/
theorem placeAt_append (before text : List Char) (pos : Nat) :
    placeAt (before ++ text) (before.length + pos) = (placeAt text pos).behind before := by
  have htake : (before ++ text).take (before.length + pos) = before ++ text.take pos :=
    List.take_length_add_append pos
  have hline : (placeAt text pos).line = 1 ↔ '\n' ∉ text.take pos := by
    rw [placeAt, Nat.add_eq_right, List.count_eq_zero]
  have hcount : (text.take pos).count '\n' + 1 + before.count '\n' =
      before.count '\n' + (text.take pos).count '\n' + 1 := by omega
  by_cases hbreak : '\n' ∈ text.take pos
  · rw [Place.behind, if_neg fun h ↦ hline.mp h hbreak, placeAt, htake, indentAt_append,
      if_pos hbreak, List.count_append, ← hcount]
    rfl
  · rw [Place.behind, if_pos (hline.mpr hbreak), placeAt, htake, indentAt_append, if_neg hbreak,
      List.count_append, ← hcount, Nat.add_right_comm (indentAt text pos)]
    rfl

/-- What follows a place does not move it. -/
theorem placeAt_append_left {text : List Char} {pos : Nat} (h : pos ≤ text.length)
    (after : List Char) : placeAt (text ++ after) pos = placeAt text pos := by
  simp only [placeAt, indentAt, List.take_append_of_le_length h]

/-- A text consists of the blanks at its start, what is left of it, and the blanks at its end. -/
theorem exists_eq_append_trim (text : List Char) :
    ∃ after, text = text.takeWhile Text.isBlank ++ (Text.trim text ++ after) := by
  obtain ⟨after, hafter, -⟩ := Text.exists_trimEnd_append (Text.trimStart text)
  refine ⟨after, ?_⟩
  rw [Text.trim, ← hafter]
  exact List.takeWhile_append_dropWhile.symm

/-! ### Blanks in front of a file -/

/-- The places of an error are counted in the file without the blanks at its ends. Line feeds before
a file that is refused change neither the error nor its message; and the place in the given text of
each place in the file without these blanks is lower by all line feeds among the blanks at the
start, and if it was in the first line, further right by the last line of these blanks. -/
theorem parse_error_behind_blanks {source : String} {e : Error} (h : parse source = .error e)
    (k : Nat) :
    let given := List.replicate k '\n' ++ source.toList
    let blanks := List.replicate k '\n' ++ source.toList.takeWhile Text.isBlank
    let file := Text.trim given
    (parse (String.ofList given) = .error e ∧
      e.message (String.ofList given) = e.message source) ∧
    (∃ after, given = blanks ++ (file ++ after)) ∧
    (∀ p ∈ e.positions, p ≤ file.length) ∧
    ∀ p, p ≤ file.length → placeAt given (blanks.length + p) = (placeAt file p).behind blanks := by
  intro given blanks file
  have hbreaks : ∀ c ∈ List.replicate k '\n', Text.isBlank c = true := by
    intro c hc
    rw [List.eq_of_mem_replicate hc]
    rfl
  have hfile : file = Text.trim source.toList := Text.trim_blanks_append hbreaks _
  obtain ⟨after, hsource⟩ := exists_eq_append_trim source.toList
  have hgiven : given = blanks ++ (file ++ after) := by
    rw [hfile, List.append_assoc, ← hsource]
  refine ⟨⟨?_, ?_⟩, ⟨after, hgiven⟩, ?_, fun p hp ↦ ?_⟩
  · rw [parse, String.toList_ofList, Text.trim_blanks_append hbreaks]
    exact h
  · rw [Error.message, String.toList_ofList, Text.trim_blanks_append hbreaks]
    rfl
  · rw [hfile]
    exact positions_le_of_parse h
  · rw [hgiven, placeAt_append, placeAt_append_left hp]

/-- A number too large behind one line feed and two blanks: its digits are reported in line one, as
without the line feed, and stand in line two of what was given. -/
theorem parse_error_behind_blanks_states :
    let source := "  states: 99999999999999999999"
    let file := "states: 99999999999999999999".toList
    let given := '\n' :: source.toList
    parse source = .error (.faulty .numberTooLarge ⟨8, 28⟩) ∧
      parse (String.ofList given) = .error (.faulty .numberTooLarge ⟨8, 28⟩) ∧
      placeAt file 8 = ⟨1, 9⟩ ∧ placeAt given 11 = ⟨2, 11⟩ := by
  intro source file given
  have hparse : parse source = .error (.faulty .numberTooLarge ⟨8, 28⟩) := by decide
  have hfile : Text.trim given = file := by decide
  obtain ⟨⟨hgiven, -⟩, -, hpositions, hplace⟩ := parse_error_behind_blanks hparse 1
  have hblanks : source.toList.takeWhile Text.isBlank = [' ', ' '] := by decide
  have hmoved := hplace 8 (hpositions 8 List.mem_cons_self)
  rw [hblanks] at hmoved
  refine ⟨hparse, hgiven, by decide, hmoved.trans ?_⟩
  rw [show Text.trim (List.replicate 1 '\n' ++ source.toList) = file from hfile]
  decide

/-- The lines of a reported place are not those of the given text: a line feed in front of a file
does not move the place. -/
theorem line_feed_moves_no_place :
    let source := "states: 99999999999999999999"
    ∃ e, parse source = .error e ∧ parse ("\n" ++ source) = .error e ∧
      (e.excerpt? (Text.trim source.toList)).map Excerpt.place = some ⟨1, 9⟩ ∧
      (e.excerpt? (Text.trim ("\n" ++ source).toList)).map Excerpt.place = some ⟨1, 9⟩ :=
  ⟨.faulty .numberTooLarge ⟨8, 28⟩, by decide, by decide, by decide, by decide⟩

end Definition

end TapeMachine
