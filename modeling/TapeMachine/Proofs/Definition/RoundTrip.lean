import TapeMachine.Proofs.Definition.Reading

/-!
# Round trip of definition files

The file that is written for a program is read as that program (`parse_eq_of_writable`), if the
program can be written and its mode is normal. The file ends with a line break, which is dropped
before it is read; the other line breaks stand between sections.
-/

namespace TapeMachine.Definition

open Peg (Takes Refuses)

/-! ### Files -/

/-- The sections of a file on lines of their own, without the line break at the end. -/
def writtenSections (first : Statement) (others : List Statement) : List Char :=
  first.written ++ others.flatMap fun s ↦ '\n' :: s.written

private theorem flatMap_concat_eq {α : Type} (f : α → List Char) (x : Char) (a : α) (as : List α) :
    (a :: as).flatMap (fun b ↦ f b ++ [x]) = f a ++ as.flatMap (fun b ↦ x :: f b) ++ [x] := by
  induction as generalizing a with
  | nil => simp
  | cons b as ih =>
    rw [List.flatMap_cons, ih b]
    simp

/-- The first section stands before the line break and the other sections. -/
theorem writtenSections_cons (first second : Statement) (others : List Statement) :
    writtenSections first (second :: others) =
      (first.written ++ ['\n']) ++ writtenSections second others := by
  simp [writtenSections]

/-- Before sections no gap begins. -/
theorem solid_sections (first : Statement) (others : List Statement) (rest : List Char) :
    Solid (writtenSections first others ++ rest) := by
  rw [writtenSections, List.append_assoc]
  exact solid_written first _

/-- A section with the line breaks behind it. -/
def sectionBlock : Grammar.Expr (Located Section) :=
  (Grammar.pair Grammar.anySection (Grammar.list Grammar.lineBreak)).map Prod.fst

/-- The last section of a file is read. -/
theorem takes_lastBlock {s : Statement} (hs : s.Writable) (hne : s ≠ .name "") :
    sectionBlock.Takes s.written [] fun x ↦ x.value.statement = .ok s := by
  have hbreaks : (Grammar.list Grammar.lineBreak).Takes [] [] fun _ ↦ True :=
    (Takes.optional_of_refuses ((Refuses.nil rfl).seq _)).map fun _ _ ↦ trivial
  have hblock := (takes_pair (w := []) solid_nil (takes_anySection hs hne (.inl rfl)) hbreaks).map
    (g := Prod.fst) (W := fun x ↦ x.value.statement = .ok s) fun _ hx ↦ hx.1
  rwa [List.append_nil] at hblock

/-- A section before another one is read with the line break between them. -/
theorem takes_block {s t : Statement} (hs : s.Writable) (hne : s ≠ .name "") (rest : List Char) :
    sectionBlock.Takes (s.written ++ ['\n']) (t.written ++ rest)
      fun x ↦ x.value.statement = .ok s := by
  have hrefuses : Grammar.lineBreak.Refuses (t.written ++ rest) :=
    refuses_lineBreak fun a ha ↦ isBreak_written ha
  have hsolid := solid_written t rest
  have hbreak : Grammar.lineBreak.Takes ['\n'] ([] ++ (t.written ++ rest)) fun _ ↦ True :=
    (Takes.literal "\n" _).choice _
  have hmore : (Grammar.gap.right Grammar.lineBreak).many.Takes [] (t.written ++ rest)
      fun _ ↦ True :=
    (Takes.many_nil (refuses_gap_right hsolid hrefuses)).mono fun _ _ ↦ trivial
  have hbreaks : (Grammar.list Grammar.lineBreak).Takes ['\n'] (t.written ++ rest) fun _ ↦ True :=
    (hbreak.seq hmore).optional.map fun _ _ ↦ trivial
  refine (takes_pair (solid_cons (by decide) _)
    (takes_anySection hs hne (.inr ⟨t, rest, rfl⟩)) hbreaks).map fun _ hx ↦ hx.1

/-- The sections of a file are read to the end. -/
theorem takes_blocks {first : Statement} {others : List Statement}
    (h : ∀ s ∈ first :: others, s.Writable ∧ s ≠ .name "") :
    (Grammar.list sectionBlock).Takes (writtenSections first others) []
      fun xs ↦ xs.map (fun x ↦ x.value.statement) = (first :: others).map .ok := by
  have hgap : (Grammar.gap.right sectionBlock).reads = true := rfl
  have hmany : (Grammar.gap.right sectionBlock).many.Takes (writtenSections first others) []
      fun xs ↦ xs.map (fun x ↦ x.value.statement) = (first :: others).map .ok := by
    induction others generalizing first with
    | nil =>
      obtain ⟨hfirst, hne⟩ := h first List.mem_cons_self
      refine (Takes.many_cons hgap (w := []) (takes_gap_right (solid_written first [])
        (takes_lastBlock hfirst hne)) (Takes.many_nil (Refuses.nil rfl))).mono ?_
      rintro _ ⟨x, xs, rfl, hx, rfl⟩
      rw [List.map_cons, hx]
      rfl
    | cons t ts ih =>
      obtain ⟨hfirst, hne⟩ := h first List.mem_cons_self
      have hothers := ih fun s hs ↦ h s (List.mem_cons_of_mem _ hs)
      have hsolid : Solid ((first.written ++ ['\n']) ++ (writtenSections t ts ++ [])) := by
        rw [← List.append_assoc, ← writtenSections_cons]
        exact solid_sections first (t :: ts) []
      have hblock : sectionBlock.Takes (first.written ++ ['\n']) (writtenSections t ts ++ [])
          fun x ↦ x.value.statement = .ok first := by
        rw [writtenSections, List.append_assoc]
        exact takes_block hfirst hne _
      rw [writtenSections_cons]
      apply (Takes.many_cons hgap (takes_gap_right hsolid hblock) hothers).mono
      rintro _ ⟨x, xs, rfl, hx, hxs⟩
      rw [List.map_cons, hx, hxs]
      rfl
  exact takes_list_of_many rfl (solid_sections first others []) hmany

/-- A file is read to the end. -/
theorem takes_file {first : Statement} {others : List Statement}
    (h : ∀ s ∈ first :: others, s.Writable ∧ s ≠ .name "") :
    Grammar.file.Takes (writtenSections first others) []
      fun xs ↦ xs.map (fun x ↦ x.value.statement) = (first :: others).map .ok := by
  have hsolid := solid_sections first others []
  have hrefuses : Grammar.lineBreak.Refuses (writtenSections first others ++ []) := by
    rw [writtenSections, List.append_assoc]
    exact refuses_lineBreak fun a ha ↦ isBreak_written ha
  have hstop : (Peg.rule RuleName.endOfInput .ends : Grammar.Expr (Located Unit)).Takes [] []
      fun _ ↦ True :=
    Takes.ends.rule.mono fun _ _ ↦ trivial
  have hbreaks : (Grammar.list Grammar.lineBreak).Takes [] (writtenSections first others ++ [])
      fun _ ↦ True :=
    (Takes.optional_of_refuses (hrefuses.seq _)).map fun _ _ ↦ trivial
  have hsections := takes_pair (w := []) solid_nil (takes_blocks h) hstop
  rw [List.append_nil] at hsections
  have hbody := takes_pair (v := []) hsolid hbreaks hsections
  exact ((takes_gap_right hsolid hbody).rule).map fun _ hx ↦ hx.2.1

/-! ### Ends of files -/

theorem isBlank_digit {d : Char} (h : d.isDigit = true) : Text.isBlank d = false := by
  simp only [Char.isDigit, Bool.and_eq_true, decide_eq_true_eq, UInt32.le_iff_toNat_le] at h
  have hlow : 48 ≤ d.toNat := h.1
  have hhigh : d.toNat ≤ 57 := h.2
  simp only [Text.isBlank, Text.inRanges, Text.blankRanges, List.any_cons, List.any_nil,
    Bool.or_false, Bool.or_eq_false_iff, Bool.and_eq_false_iff, decide_eq_false_iff_not]
  omega

/-- A head position does not end with a blank. -/
theorem getLast_spelled {t : PositionText} (h : Text.IsNumeral t.digits) :
    ∃ d, t.spelled.getLast? = some d ∧ Text.isBlank d = false := by
  obtain ⟨d, hd⟩ := Option.ne_none_iff_exists'.mp (mt List.getLast?_eq_none_iff.mp h.ne_nil)
  refine ⟨d, ?_, isBlank_digit (h.isDigit d (List.mem_of_getLast? hd))⟩
  rw [PositionText.spelled]
  split
  · rw [List.getLast?_cons, hd, Option.getD_some]
  · exact hd

/-- The last section of a file does not end with a blank. -/
theorem getLast_runs (rs : List Run) :
    ∃ a, (Statement.runs rs).written.getLast? = some a ∧ Text.isBlank a = false := by
  show ∃ a, ("runs:".toList ++ rs.flatMap fun r ↦ '\n' :: writtenRun r).getLast? = some a ∧ _
  rcases List.eq_nil_or_concat rs with rfl | ⟨init, r, rfl⟩
  · exact ⟨':', rfl, rfl⟩
  · obtain ⟨d, hd, hblank⟩ := getLast_spelled (isNumeral_positionText r.head)
    rw [spelled_positionText] at hd
    refine ⟨d, ?_, hblank⟩
    simp [writtenRun, List.getLast?_append, List.getLast?_cons, hd]

private theorem trimmed_sections (name : String) (init : List Statement) (rs : List Run) :
    Text.Trimmed (writtenSections (.name name) (init ++ [.runs rs])) := by
  constructor
  · intro a ha
    have hn : some 'n' = some a := ha
    rw [← Option.some.inj hn]
    rfl
  · intro a ha
    obtain ⟨b, hb, hblank⟩ := getLast_runs rs
    have hlast : (writtenSections (.name name) (init ++ [.runs rs])).getLast? = some b := by
      simp [writtenSections, List.getLast?_append, List.getLast?_cons, hb]
    rw [hlast] at ha
    rw [← Option.some.inj ha]
    exact hblank

/-- The sections of the file that is written for a program say what they were written for. -/
theorem sections_written {p : Program} (hname : p.name ≠ "")
    (h : ∀ s ∈ statementsOf p, s.Writable) :
    ∃ secs, sections (Text.trim (written p).toList) = .ok secs ∧
      secs.map (fun x ↦ x.value.statement) = (statementsOf p).map .ok := by
  obtain ⟨init, hstatements⟩ : ∃ init, statementsOf p = .name p.name :: (init ++ [.runs p.runs]) :=
    ⟨[.mode p.mode, .states p.machine.numStates, .start p.machine.start] ++
      alphabetStatements p.machine.alphabet.toList ++ [.transitions p.machine.table.rules],
      by simp [statementsOf]⟩
  have hne : ∀ s ∈ statementsOf p, s ≠ .name "" := by
    rintro s hs rfl
    simp [statementsOf, mem_alphabetStatements, hname.symm] at hs
  rw [hstatements] at h hne ⊢
  have htrim : Text.trim (written p).toList =
      writtenSections (.name p.name) (init ++ [.runs p.runs]) := by
    rw [written, String.toList_ofList, hstatements, flatMap_concat_eq, ← writtenSections]
    refine Text.trim_append (trimmed_sections _ _ _) ?_ ?_
    · intro hnil
      cases hnil
    · intro c hc
      rw [List.mem_singleton.mp hc]
      rfl
  obtain ⟨secs, hsecs, hsay⟩ := takes_file (fun s hs ↦ ⟨h s hs, hne s hs⟩) 0
  rw [List.append_nil] at hsecs
  refine ⟨secs, ?_, hsay⟩
  rw [htrim, sections, (Peg.read_eq_ok_iff rfl).mpr ⟨_, hsecs⟩]
  rfl

/-! ### Programs -/

private theorem nodup_kinds (p : Program) : ((statementsOf p).map Statement.kind).Nodup := by
  rw [statementsOf]
  cases p.machine.alphabet.toList with
  | nil => simp [alphabetStatements, Statement.kind]
  | cons s ss => simp [alphabetStatements, Statement.kind]

/-- A draft that holds the alphabet and the rules that are written has the symbols of the alphabet.
-/
theorem alphabetOf_of_content {m : Machine} {d : Draft} {rules : List (Located Rule)}
    (hrules : rules.map Located.value = m.table.rules)
    (halphabet : m.alphabet.toList = [] → m.table.rules = [])
    (hsome : m.alphabet.toList ≠ [] → d.content .alphabet = some (.alphabet m.alphabet.toList))
    (hnone : m.alphabet.toList = [] → d.content .alphabet = none) :
    alphabetOf d.alphabet rules = m.alphabet.toList := by
  by_cases hne : m.alphabet.toList = []
  · have hd : d.alphabet = none := by simpa [Draft.content] using hnone hne
    rw [halphabet hne, List.map_eq_nil_iff] at hrules
    rw [hd, hrules, hne]
    rfl
  · have hd := hsome hne
    simp only [Draft.content, Option.map_eq_some_iff, Statement.alphabet.injEq,
      exists_eq_right] at hd
    rw [hd]
    rfl

/-- A draft that holds what is written for a program describes the program. -/
theorem described_of_content {p : Program} {d : Draft}
    (halphabet : p.machine.alphabet.toList = [] → p.machine.table.rules = [])
    (hheld : ∀ s ∈ statementsOf p, d.content s.kind = some s)
    (hother : ∀ k, k ∉ (statementsOf p).map Statement.kind → d.content k = none) :
    ∃ rules, d.name = some p.name ∧ d.states = some p.machine.numStates ∧
      d.rules = some rules ∧ d.described p.name p.machine.numStates rules = p := by
  have hname : d.content .name = some (.name p.name) := hheld (.name _) (by simp [statementsOf])
  have hmode : d.content .mode = some (.mode p.mode) := hheld (.mode _) (by simp [statementsOf])
  have hstates : d.content .states = some (.states p.machine.numStates) :=
    hheld (.states _) (by simp [statementsOf])
  have hstart : d.content .start = some (.start p.machine.start) :=
    hheld (.start _) (by simp [statementsOf])
  have htable : d.content .transitions = some (.transitions p.machine.table.rules) :=
    hheld (.transitions _) (by simp [statementsOf])
  have hruns : d.content .runs = some (.runs p.runs) := hheld (.runs _) (by simp [statementsOf])
  simp only [Draft.content, Option.map_eq_some_iff, Statement.name.injEq, Statement.mode.injEq,
    Statement.states.injEq, Statement.start.injEq, Statement.transitions.injEq,
    Statement.runs.injEq, exists_eq_right] at hname hmode hstates hstart htable hruns
  obtain ⟨rules, hrules, hvalues⟩ := htable
  refine ⟨rules, hname, hstates, hrules, ?_⟩
  have hsymbols : alphabetOf d.alphabet rules = p.machine.alphabet.toList := by
    refine alphabetOf_of_content hvalues halphabet (fun hne ↦ ?_) fun hnil ↦ ?_
    · exact hheld (.alphabet _) (by simp [statementsOf, mem_alphabetStatements, hne])
    · exact hother .alphabet (by simp [statementsOf, hnil, alphabetStatements, Statement.kind])
  rw [Draft.described, hmode, hstart, hruns, hsymbols, hvalues, SortedSet.ofList_toList, tableOf,
    Table.foldl_define_rules]
  rfl

/-- The file that is written for a program in normal mode is read as the program. -/
theorem parse_eq_of_writable {p : Program} (hmode : p.mode = .normal) (hw : p.Writable)
    (hr : p.Representable) : ∃ warnings, parse (written p) = .ok (p, warnings) := by
  obtain ⟨hname, halphabet, h⟩ := writable_iff.mp ⟨hw, hr⟩
  obtain ⟨secs, hsecs, hsay⟩ := sections_written hname h
  obtain ⟨d, hdraft, hheld, hother⟩ := Draft.foldlM_add_eq_ok hsay (nodup_kinds p)
    (d := Draft.empty) fun s _ ↦ by cases s <;> rfl
  have hnone : ∀ k, k ∉ (statementsOf p).map Statement.kind → d.content k = none := by
    intro k hk
    rw [hother k hk]
    cases k <;> rfl
  obtain ⟨rules, hn, hs, hrules, hp⟩ := described_of_content halphabet hheld hnone
  have hnormal : d.mode.getD .normal = .normal := (congrArg Program.mode hp).trans hmode
  rcases Draft.program_cases hn hs hrules with ⟨again, hprogram⟩ | ⟨hstrict, -⟩
  · rw [hp] at hprogram
    have hcheck : p.check = .ok p.findings := by
      rw [Program.check, hmode]
    exact ⟨_, parse_eq_ok_iff.mpr ⟨secs, hsecs, programOf_eq_ok_iff.mpr
      ⟨d, again, p.findings, hdraft, hprogram, hcheck, rfl⟩⟩⟩
  · cases hnormal.symm.trans hstrict

end TapeMachine.Definition
