import TapeMachine.Proofs.Definition.Blocks
import TapeMachine.Proofs.Definition.SameParts
import TapeMachine.Proofs.Peg.Rounds

/-!
# The table of a file

How the reader comes to a rule of a file (`ComesTo`) and how it goes on from there (`GoesOn`):
through the sections before the table, the keyword, one line after another, and the sections behind
(`exists_comesTo_iff`).
-/

namespace TapeMachine.Definition

open Peg (Cursor Refuses)

variable {α : Type} {e : Grammar.Expr α} {c next last : Cursor} {as : List α}
  {s : Located Section} {r : Located RuleText} {rules : List (Located RuleText)}
  {before after : List (Located Section)} {t : List Char}

/-! ### Lists -/

/-- Where no gap begins, a list is a repetition. -/
theorem outcome_list_of_settled (hr : e.reads = true) (hc : Settled isSpace c.rest) :
    (Grammar.list e).outcome c = (Grammar.gap.right e).many.outcome c := by
  obtain ⟨d, hgap, hd⟩ := outcome_gap c
  obtain ⟨w, hw, -⟩ := Peg.outcome_passes hgap
  obtain rfl : d = c := hw.eq_of_rest_eq (hd.trans (skip_of_settled hc))
  have hfirst := Peg.outcome_right_of_some (e := e) hgap
  cases ho : e.outcome d with
  | none =>
    rw [Peg.outcome_many_of_none (hfirst.trans ho), Grammar.list]
    simp only [Peg.outcome, ho]
    rfl
  | some x =>
    obtain ⟨as, last, hm⟩ := Peg.exists_outcome_many (Grammar.gap.right e) x.2
    rw [Peg.outcome_many_of_some (Peg.reads_right _ hr) (hfirst.trans ho) hm]
    exact outcome_list_cons_iff.mpr ⟨x.2, ho, hm⟩

/-- Where no gap begins, the parts of a list are rounds. -/
theorem outcome_list_eq_some_iff (hr : e.reads = true) (hc : Settled isSpace c.rest) :
    (Grammar.list e).outcome c = some (as, last) ↔
      (Grammar.gap.right e).Rounds c as last ∧ (Grammar.gap.right e).outcome last = none := by
  rw [outcome_list_of_settled hr hc, Peg.outcome_many_eq_some_iff (Peg.reads_right _ hr)]

/-! ### Lines of a table -/

/-- Where a line ends behind a gap, a rule is looked for behind the layout. -/
theorem outcome_ruleLine_of_isBreak {a : Char} (ha : (skipGap c.rest).head? = some a)
    (hb : Grammar.isBreak a = true) : ∃ (d : Cursor) (w : List Char), d.rest = skipLayout c.rest ∧
      c.Passes w d ∧ (∃ b ∈ w, Grammar.isBreak b = true) ∧
      (Grammar.gap.right ruleLine).outcome c = Grammar.transition.outcome d := by
  obtain ⟨m, hgap, hm⟩ := outcome_gap c
  obtain ⟨d, hd, hout, w, hw⟩ := outcome_onLine Grammar.transition (c := m) (hm ▸ ha) hb
  obtain ⟨v, hv, -⟩ := Peg.outcome_passes hgap
  refine ⟨d, v ++ w, by rw [hd, hm, skipLayout_skipGap], hv.append hw, ?_, ?_⟩
  · -- The layout has been left behind, so the break that ends the line has.
    obtain ⟨cs, hcs⟩ := List.head?_eq_some_iff.mp ha
    have hrest := hw.rest_eq
    rw [hm, hcs] at hrest
    cases w with
    | nil =>
      have hsettled := settled_skip isLayout false m.rest
      rw [← skipLayout, ← hd, ← List.nil_append d.rest, ← hrest] at hsettled
      cases (hsettled a cs rfl).1.symm.trans (isLayout_of_isBreak hb)
    | cons b w =>
      obtain ⟨rfl, -⟩ := List.cons.inj hrest
      exact ⟨a, List.mem_append_right v List.mem_cons_self, hb⟩
  · rw [Peg.outcome_right_of_some hgap, ruleLine, Peg.outcome, hout, Option.map_map]
    exact Option.map_id'

/-- Where a rule is read on a line of its own, the line before it ends behind a gap. -/
theorem isBreak_of_outcome_ruleLine
    (h : (Grammar.gap.right ruleLine).outcome c = some (r, next)) :
    ∃ a, (skipGap c.rest).head? = some a ∧ Grammar.isBreak a = true := by
  by_contra hnot
  push Not at hnot
  obtain ⟨m, hgap, hm⟩ := outcome_gap c
  rw [Peg.outcome_right_of_some hgap, ruleLine, Peg.outcome, outcome_onLine_of_not_isBreak
    Grammar.transition (c := m) fun a ha ↦ by simpa using hnot a (hm ▸ ha)] at h
  cases h

/-! ### Sections -/

/-- A table. -/
def tableSection : Grammar.Expr (Located Section) :=
  Peg.rule .transitions
    ((Grammar.after "transitions:" (Grammar.list ruleLine)).map Section.transitions)

/-- A section with rules is read as a table. -/
theorem outcome_anySection_iff (hs : s.value = .transitions rules) :
    Grammar.anySection.outcome c = some (s, next) ↔ tableSection.outcome c = some (s, next) := by
  constructor
  · intro h
    have hother {β : Type} {n : RuleName} {f : Grammar.Expr β} {g : β → Section}
        (hg : ∀ b, g b ≠ .transitions rules) :
        (Peg.rule n (f.map g)).outcome c ≠ some (s, next) := by
      intro hsome
      obtain ⟨b, -, rfl⟩ := Peg.outcome_rule_map_eq_some_iff.mp hsome
      exact hg b hs
    have hrest {o o' : Option (Located Section × Cursor)} (ho : o ≠ some (s, next))
        (h : o.or o' = some (s, next)) : o' = some (s, next) :=
      (Option.or_eq_some_iff.mp h).resolve_left ho |>.2
    have h := hrest (hother (by simp)) <| hrest (hother (by simp)) <| hrest (hother (by simp)) <|
      hrest (hother (by simp)) <| hrest (hother (by simp)) h
    exact (Option.or_eq_some_iff.mp h).resolve_right fun h ↦ hother (by simp) h.2
  · intro h
    obtain ⟨rules', htable, -⟩ := Peg.outcome_rule_map_eq_some_iff.mp h
    obtain ⟨u, mid, hkeyword, -⟩ := Peg.outcome_right_eq_some_iff.mp htable
    obtain ⟨rest, hdrop, -⟩ := Option.map_eq_some_iff.mp hkeyword
    have hprefix : (SectionKind.transitions.keyword ++ ":").toList <+: c.rest :=
      ⟨rest, (Peg.dropText?_eq_some_iff.mp hdrop).symm⟩
    -- Every section before the table in the choice is refused for its keyword.
    have hskip {β : Type} {n : RuleName} {kw : String} {f : Grammar.Expr β} {g : β → Section}
        (k : SectionKind) {o : Option (Located Section × Cursor)} (hkw : kw = k.keyword ++ ":")
        (hk : decide (k = .transitions) = false) :
        ((Peg.rule n ((Grammar.after kw f).map g)).outcome c).or o = o := by
      have hnone := refuses_section_of_keyword (n := n) (g := g) (e := f) hkw hk hprefix c.pos
      rw [hnone, Option.none_or]
    exact (hskip .name rfl rfl).trans <| (hskip .mode rfl rfl).trans <|
      (hskip .states rfl rfl).trans <| (hskip .start rfl rfl).trans <|
      (hskip .alphabet rfl rfl).trans (Option.or_eq_some_iff.mpr (.inl h))

/-- What stands before the rules of a table. -/
def tableHead : Grammar.Expr Unit :=
  Grammar.gap.right ((Peg.literal "transitions:").right Grammar.gap)

/-- A table is read from its head to the line breaks behind its rules. -/
theorem exists_outcome_table_iff :
    (∃ s, (Grammar.gap.right sectionBlock).outcome c = some (s, next) ∧
      s.value = .transitions rules) ↔
      ∃ first last us, tableHead.outcome c = some ((), first) ∧
        (Grammar.list ruleLine).outcome first = some (rules, last) ∧
        (Grammar.gap.right (Grammar.list Grammar.lineBreak)).outcome last = some (us, next) := by
  obtain ⟨d, hgap, -⟩ := outcome_gap c
  rw [Peg.outcome_right_of_some hgap, tableHead, Peg.outcome_right_of_some hgap]
  constructor
  · rintro ⟨s, hblock, hs⟩
    obtain ⟨last, us, hsection, hbreaks⟩ := Peg.outcome_left_eq_some_iff.mp hblock
    rw [outcome_anySection_iff hs] at hsection
    obtain ⟨rules', htable, rfl⟩ := Peg.outcome_rule_map_eq_some_iff.mp hsection
    obtain rfl := Section.transitions.inj hs
    obtain ⟨u, mid, hkeyword, htable⟩ := Peg.outcome_right_eq_some_iff.mp htable
    obtain ⟨u', first, hgap', hrules⟩ := Peg.outcome_right_eq_some_iff.mp htable
    exact ⟨first, last, us, Peg.outcome_right_eq_some_iff.mpr ⟨u, mid, hkeyword, hgap'⟩, hrules,
      hbreaks⟩
  · rintro ⟨first, last, us, hhead, hrules, hbreaks⟩
    obtain ⟨u, mid, hkeyword, hgap'⟩ := Peg.outcome_right_eq_some_iff.mp hhead
    have hsection : tableSection.outcome d = some (⟨.transitions rules, d.pos, last.pos⟩, last) :=
      Peg.outcome_rule_map_eq_some_iff.mpr ⟨rules, Peg.outcome_right_eq_some_iff.mpr
        ⟨u, mid, hkeyword, Peg.outcome_right_eq_some_iff.mpr ⟨(), first, hgap', hrules⟩⟩, rfl⟩
    exact ⟨_, Peg.outcome_left_eq_some_iff.mpr
      ⟨last, us, (outcome_anySection_iff rfl).mpr hsection, hbreaks⟩, rfl⟩

/-! ### Files -/

/-- Two places to which the start of a text leads are the same if as much is left there. -/
theorem eq_of_passes {d d' : Cursor} {v w : List Char} (hv : c.Passes v d) (hw : c.Passes w d')
    (hrest : d.rest = d'.rest) : d = d' := by
  have hword : v = w := by
    have heq : v ++ d'.rest = w ++ d'.rest := by rw [← hw.rest_eq, ← hrest, ← hv.rest_eq]
    exact List.append_cancel_right heq
  rw [hv.eq, hw.eq, hword, hrest]

/-- The sections of a file are rounds, from behind the layout at its start up to where nothing but a
gap is left. -/
theorem sections_eq_ok_iff {xs : List (Located Section)} : sections t = .ok xs ↔
    ∃ start w stop, (Cursor.ofText t).Passes w start ∧ start.rest = skipLayout t ∧
      (Grammar.gap.right sectionBlock).Rounds start xs stop ∧ skipGap stop.rest = [] := by
  obtain ⟨start, w, hpasses, hrest, hfile⟩ := exists_outcome_file_iff_behind t
  have hsettled : Settled isSpace start.rest := by
    rw [hrest]
    exact settled_isSpace (settled_skip isLayout false t)
  have hsections : sections t = .ok xs ↔ ∃ stop,
      (Grammar.gap.right sectionBlock).Rounds start xs stop ∧ skipGap stop.rest = [] := by
    have hread : sections t = .ok xs ↔ Grammar.file.read t = .ok xs := by
      refine ⟨eq_ok_of_mapError_eq_ok, fun h ↦ ?_⟩
      rw [sections, h]
      rfl
    rw [hread, Peg.read_eq_ok_iff rfl, hfile]
    refine exists_congr fun stop ↦ and_congr_left fun hstop ↦ ?_
    rw [outcome_list_eq_some_iff rfl hsettled, and_iff_left]
    obtain ⟨⟨rest, pos⟩, hgap, hd⟩ := outcome_gap stop
    obtain rfl : rest = [] := hd.trans hstop
    exact (Peg.outcome_right_of_some hgap).trans (Refuses.nil rfl pos)
  rw [hsections]
  constructor
  · rintro ⟨stop, hrounds, hstop⟩
    exact ⟨start, w, stop, hpasses, hrest, hrounds, hstop⟩
  · rintro ⟨start', w', stop, hpasses', hrest', hrounds, hstop⟩
    obtain rfl := eq_of_passes hpasses hpasses' (hrest.trans hrest'.symm)
    exact ⟨stop, hrounds, hstop⟩

/-- Behind the head of a table there is no gap. -/
theorem settled_of_outcome_tableHead (h : tableHead.outcome c = some ((), next)) :
    Settled isSpace next.rest := by
  obtain ⟨u, mid, -, h⟩ := Peg.outcome_right_eq_some_iff.mp h
  obtain ⟨u', mid', -, h⟩ := Peg.outcome_right_eq_some_iff.mp h
  obtain ⟨d, hgap, hd⟩ := outcome_gap mid'
  rw [h, Option.some.injEq, Prod.mk.injEq] at hgap
  rw [hgap.2, hd]
  exact settled_skip isSpace false mid'.rest

/-- The reader of a text comes to a place in its table: it has read the sections before the table
and some of the rules. -/
inductive ComesTo (t : List Char) (before : List (Located Section))
    (rules : List (Located RuleText)) (place : Cursor) : Prop
  | intro (start table first : Cursor) {w : List Char} (opens : (Cursor.ofText t).Passes w start)
      (layout : start.rest = skipLayout t)
      (sections : (Grammar.gap.right sectionBlock).Rounds start before table)
      (head : tableHead.outcome table = some ((), first))
      (rounds : (Grammar.gap.right ruleLine).Rounds first rules place)

/-- From a place in a table the reader goes on to the end of the file: it reads the other rules and
the sections behind the table. -/
inductive GoesOn (place : Cursor) (rules : List (Located RuleText))
    (after : List (Located Section)) : Prop
  | intro (last rest stop : Cursor) {us : List Unit}
      (rounds : (Grammar.gap.right ruleLine).Rounds place rules last)
      (ends : (Grammar.gap.right ruleLine).outcome last = none)
      (breaks : (Grammar.gap.right (Grammar.list Grammar.lineBreak)).outcome last = some (us, rest))
      (sections : (Grammar.gap.right sectionBlock).Rounds rest after stop)
      (gap : skipGap stop.rest = [])

variable {front back : List (Located RuleText)} {place : Cursor}

/-- In a file with a table the reader comes to every place between two rules. -/
theorem exists_comesTo_iff :
    (∃ s, s.value = .transitions (front ++ back) ∧ sections t = .ok (before ++ s :: after)) ↔
      ∃ place, ComesTo t before front place ∧ GoesOn place back after := by
  simp only [sections_eq_ok_iff, Peg.rounds_append_iff, Peg.rounds_cons_iff]
  constructor
  · rintro ⟨s, hs, start, w, stop, hpasses, hrest, ⟨table, hbefore, rest, hblock, hafter⟩, hstop⟩
    obtain ⟨first, last, us, hhead, hrules, hbreaks⟩ := exists_outcome_table_iff.mp ⟨s, hblock, hs⟩
    obtain ⟨hrules, hends⟩ :=
      (outcome_list_eq_some_iff rfl (settled_of_outcome_tableHead hhead)).mp hrules
    obtain ⟨place, hfront, hback⟩ := Peg.rounds_append_iff.mp hrules
    exact ⟨place, .intro start table first hpasses hrest hbefore hhead hfront,
      .intro last rest stop hback hends hbreaks hafter hstop⟩
  · rintro ⟨place, ⟨start, table, first, hpasses, hrest, hbefore, hhead, hfront⟩,
      ⟨last, rest, stop, hback, hends, hbreaks, hafter, hstop⟩⟩
    have hrules := (outcome_list_eq_some_iff rfl (settled_of_outcome_tableHead hhead)).mpr
      ⟨Peg.rounds_append_iff.mpr ⟨place, hfront, hback⟩, hends⟩
    obtain ⟨s, hblock, hs⟩ := exists_outcome_table_iff.mpr ⟨first, last, _, hhead, hrules, hbreaks⟩
    exact ⟨s, hs, start, _, stop, hpasses, hrest, ⟨table, hbefore, rest, hblock, hafter⟩, hstop⟩

theorem goesOn_cons_iff : GoesOn place (r :: back) after ↔
    ∃ next, (Grammar.gap.right ruleLine).outcome place = some (r, next) ∧
      GoesOn next back after := by
  constructor
  · rintro ⟨last, rest, stop, hrounds, hends, hbreaks, hafter, hstop⟩
    obtain ⟨next, hnext, hrounds⟩ := Peg.rounds_cons_iff.mp hrounds
    exact ⟨next, hnext, .intro last rest stop hrounds hends hbreaks hafter hstop⟩
  · rintro ⟨next, hnext, last, rest, stop, hrounds, hends, hbreaks, hafter, hstop⟩
    have hrounds := Peg.rounds_cons_iff.mpr ⟨next, hnext, hrounds⟩
    exact .intro last rest stop hrounds hends hbreaks hafter hstop

/-- The reader has passed a word up to the place to which it comes. -/
theorem ComesTo.exists_passes (h : ComesTo t before front place) :
    ∃ w, (Cursor.ofText t).Passes w place := by
  obtain ⟨start, table, first, hpasses, -, hbefore, hhead, hfront⟩ := h
  obtain ⟨v, hv⟩ := hbefore.exists_passes
  obtain ⟨w, hw, -⟩ := Peg.outcome_passes hhead
  obtain ⟨w', hw'⟩ := hfront.exists_passes
  exact ⟨_, ((hpasses.append hv).append hw).append hw'⟩

/-- From places behind which the same is left the reader goes on the same. -/
theorem GoesOn.exists_same (h : GoesOn place back after) {place' : Cursor}
    (hrest : place.rest = place'.rest) : ∃ back' after', GoesOn place' back' after' ∧
      List.Forall₂ SameRule back back' ∧ SameSections after after' := by
  obtain ⟨last, rest, stop, hrounds, hends, hbreaks, hafter, hstop⟩ := h
  obtain ⟨back', last', hrounds', hback, hlast⟩ := hrounds.exists_same rfl hrest
  obtain ⟨us', rest', hbreaks', -, hrest'⟩ := Peg.exists_outcome_same hbreaks rfl hlast
  obtain ⟨after', stop', hafter', hsame, hstop'⟩ := hafter.exists_same rfl hrest'
  refine ⟨back', after', .intro last' rest' stop' hrounds' (Peg.outcome_none_same hends rfl hlast)
    hbreaks' hafter' (hstop' ▸ hstop), ?_, ?_⟩
  · exact hback.imp fun _ _ h ↦ alike_ruleLine (Peg.alike_right h)
  · exact hsame.imp fun _ _ h ↦ alike_sectionBlock (Peg.alike_right h)

end TapeMachine.Definition
