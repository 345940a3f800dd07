import TapeMachine.Proofs.Definition.FileInStep
import TapeMachine.Proofs.Text.Trim

/-!
# Lines with other layout

The layout of a definition file does not matter. Lines that say nothing may be put in anywhere,
blanks before any line, blanks and a comment behind it, and the line breaks may be of another kind:
the file stays the same program, with the same warnings.
-/

namespace TapeMachine.Definition

open Text (isBlank trimEnd)

/-- The lines of a file with other layout: there are more lines that say nothing, and there may be
blanks before a line, and blanks and a comment behind it. The empty line behind the last line break
may be missing. -/
inductive Relaid : List (List Char) → List (List Char) → Prop
  | nil : Relaid [] []
  | ended : Relaid [[]] []
  | filler {f : List Char} {ls ls' : List (List Char)} (hf : Filler f) (h : Relaid ls ls') :
      Relaid ls (f :: ls')
  | line {lead l tail : List Char} {ls ls' : List (List Char)}
      (hlead : ∀ c ∈ lead, isSpace c = true) (htail : LineTail tail) (h : Relaid ls ls') :
      Relaid (l :: ls) ((lead ++ (l ++ tail)) :: ls')

/-- The lines, each with a line break behind it. -/
def lined (sep : List Char) (ls : List (List Char)) : List Char := ls.flatMap (· ++ sep)

variable {f b l tail sep w w' : List Char} {ls ls' : List (List Char)}

/-! ### Blanks and layout -/

/-- Where every blank is a space, no line ends. -/
theorem isBreak_of_blanks {c : Char} (h : isBlank c = true → isSpace c = true) :
    Grammar.isBreak c = false := by
  by_contra hb
  rw [Bool.not_eq_false] at hb
  have hs := h (isBlank_of_isLayout (isLayout_of_isBreak hb))
  rw [isSpace_of_isBreak hb] at hs
  cases hs

/-- The blanks at the start of the text are layout. -/
def LeadsIn (w : List Char) : Prop := ∀ c ∈ w.takeWhile isBlank, isLayout c = true

theorem leadsIn_of_forall (h : ∀ c ∈ w, isBlank c = true → isLayout c = true) : LeadsIn w :=
  fun c hc ↦ h c (List.takeWhile_subset isBlank hc)
    (List.all_eq_true.mp List.all_takeWhile c hc)

theorem LeadsIn.append (h : LeadsIn w) (h' : LeadsIn w') : LeadsIn (w ++ w') := by
  intro c hc
  rw [List.takeWhile_append] at hc
  split at hc
  · next hall =>
    rcases List.mem_append.mp hc with hc | hc
    · refine h c ?_
      rwa [(List.takeWhile_prefix isBlank).eq_of_length hall]
    · exact h' c hc
  · exact h c hc

theorem leadsIn_slash (text : List Char) : LeadsIn ('/' :: text) := by
  intro c hc
  rw [List.takeWhile_cons_of_neg (by decide)] at hc
  cases hc

/-- Trimming takes nothing but layout off the start. -/
theorem skipLayout_trim (h : LeadsIn w) : skipLayout (Text.trim w) = skipLayout (trimEnd w) := by
  have hw := List.takeWhile_append_dropWhile (p := isBlank) (l := w)
  have hskip := skip_append isLayout h
  rw [Text.trim, Text.trimStart]
  cases hv : w.dropWhile isBlank with
  | nil =>
    have hall := List.dropWhile_eq_nil_iff.mp hv
    rw [Text.trimEnd_eq_nil_iff.mpr hall]
    rfl
  | cons c cs =>
    have hc : isBlank c = false := by
      have hnot := List.head?_dropWhile_not isBlank w
      rw [hv] at hnot
      exact hnot
    have hend := Text.trimEnd_append (w.takeWhile isBlank) hc cs
    have hstart := Text.trimEnd_append [] hc cs
    rw [← hv, hw] at hend
    rw [hend, skipLayout, skipLayout, hskip]
    exact congrArg _ hstart

/-- If nothing but layout is left, nothing but layout is left before a part that does not end a pair
of slashes. -/
theorem skip_eq_nil_of_append {inComment : Bool} (h : skip isLayout inComment (w ++ w') = [])
    (hw' : w'.head? ≠ some '/') : skip isLayout inComment w = [] := by
  induction w generalizing inComment with
  | nil => rw [skip]
  | cons c w ih =>
    rw [List.cons_append] at h
    cases inComment with
    | true =>
      rw [skip] at h ⊢
      split
      · next hb =>
        rw [if_pos hb, if_pos (isLayout_of_isBreak hb)] at h
        rw [if_pos (isLayout_of_isBreak hb)]
        exact ih h
      · next hb =>
        rw [if_neg hb] at h
        exact ih h
    | false =>
      rw [skip] at h ⊢
      split at h
      · next hl =>
        rw [if_pos hl]
        exact ih h
      · next hl =>
        split at h
        · next hc =>
          have hw : w.head? = some '/' := by
            cases w with
            | nil => exact absurd hc.2 hw'
            | cons d w => exact hc.2
          rw [if_neg hl, if_pos ⟨hc.1, hw⟩]
          exact ih h
        · cases h

/-- Nothing but layout is left if the blanks behind it are removed. -/
theorem skipLayout_trimEnd_eq_nil (h : skipLayout w = []) : skipLayout (trimEnd w) = [] := by
  obtain ⟨blanks, hw, hblanks⟩ := Text.exists_trimEnd_append w
  rw [hw] at h
  refine skip_eq_nil_of_append h fun hslash ↦ ?_
  have hblank := hblanks '/' (List.mem_of_head? hslash)
  revert hblank
  decide

/-! ### Lines that say nothing -/

theorem Filler.append (hb : ∀ c ∈ b, isSpace c = true) (h : Filler f) : Filler (b ++ f) := by
  cases h with
  | blanks h => exact .blanks fun c hc ↦ (List.mem_append.mp hc).elim (hb c) (h c)
  | @comment w text h ht =>
    rw [← List.append_assoc]
    exact .comment (fun c hc ↦ (List.mem_append.mp hc).elim (hb c) (h c)) ht

theorem LineTail.append (hb : ∀ c ∈ b, isSpace c = true) (h : LineTail tail) :
    LineTail (b ++ tail) := by
  refine ⟨h.filler.append hb, fun c hc ↦ ?_⟩
  cases b with
  | nil => exact h.head c hc
  | cons d b =>
    obtain rfl := Option.some.inj hc
    exact hb d List.mem_cons_self

/-- A line that says nothing is layout. -/
theorem Filler.clear (h : Filler f) (hsep : IsLineBreak sep) : Clear (f ++ sep) := by
  intro rest
  rw [List.append_assoc, skipLayout, skip_filler h (fun _ ↦ isLayout_of_isSpace) rfl
    (fun _ ↦ hsep.isBreak_of_head), skip_append isLayout fun _ ↦ hsep.isLayout]

theorem clear_of_spaces (h : ∀ c ∈ b, isSpace c = true) : Clear b :=
  fun rest ↦ skip_append isLayout (fun c hc ↦ isLayout_of_isSpace (h c hc)) rest

theorem Clear.append (h : Clear w) (h' : Clear w') : Clear (w ++ w') := by
  intro rest
  rw [List.append_assoc, h, h']

theorem Filler.leadsIn (h : Filler f) : LeadsIn f := by
  have hspaces : ∀ w : List Char, (∀ c ∈ w, isSpace c = true) → LeadsIn w :=
    fun w hw ↦ leadsIn_of_forall fun c hc _ ↦ isLayout_of_isSpace (hw c hc)
  cases h with
  | blanks h => exact hspaces _ h
  | comment h ht => exact (hspaces _ h).append (leadsIn_slash _)

/-! ### Files -/

theorem lined_cons (sep l : List Char) (ls : List (List Char)) :
    lined sep (l :: ls) = l ++ (sep ++ lined sep ls) := by
  rw [lined, List.flatMap_cons, List.append_assoc]
  rfl

/-- Lines that are put one behind another have one line break less than lines have. -/
theorem trim_intercalate (hsep : IsLineBreak sep) (ls : List (List Char)) :
    Text.trim (sep.intercalate ls) = Text.trim (lined sep ls) := by
  cases ls with
  | nil => rfl
  | cons l ls =>
    have hlined : sep.intercalate (l :: ls) ++ sep = lined sep (l :: ls) := by
      induction ls generalizing l with
      | nil => simp [lined]
      | cons l' ls ih =>
        rw [List.intercalate_cons_cons, List.append_assoc, List.append_assoc, ih, ← lined_cons]
    rw [← hlined]
    exact (Text.trim_append_blanks _ fun c hc ↦ isBlank_of_isLayout (hsep.isLayout hc)).symm

/-- Every blank of the lines is a space. -/
def Plain (ls : List (List Char)) : Prop := ∀ l ∈ ls, ∀ c ∈ l, isBlank c = true → isSpace c = true

theorem Respaced.ne_nil (h : Respaced w w') (hw : w ≠ []) : w' ≠ [] := by
  cases h with
  | stop hhead hall => exact absurd rfl hw
  | char hc h => exact List.cons_ne_nil _ _
  | line ht hsep hm h =>
    obtain ⟨c, cs, rfl, -⟩ := hsep.exists_cons
    exact List.append_ne_nil_of_right_ne_nil _ (List.cons_ne_nil _ _)

namespace Relaid

/-- Lines may stay as they are. -/
theorem refl (ls : List (List Char)) : Relaid ls ls := by
  induction ls with
  | nil => exact .nil
  | cons l ls ih =>
    have hline := @Relaid.line [] l [] ls ls (by simp) ⟨.blanks (by simp), by simp⟩ ih
    rwa [List.nil_append, List.append_nil] at hline

/-- The blanks at the start of the lines are layout. -/
theorem leadsIn (h : Relaid ls ls') (hsep : IsLineBreak sep) (hls : Plain ls) :
    LeadsIn (lined sep ls') := by
  have hbreak : LeadsIn sep := leadsIn_of_forall fun c hc _ ↦ hsep.isLayout hc
  induction h with
  | nil | ended => exact leadsIn_of_forall (by simp [lined])
  | filler hf h ih =>
    rw [lined_cons]
    exact hf.leadsIn.append (hbreak.append (ih hls))
  | @line lead l _ _ _ hlead htail h ih =>
    obtain ⟨hl, hls⟩ := List.forall_mem_cons.mp hls
    rw [lined_cons]
    refine LeadsIn.append ?_ (hbreak.append (ih hls))
    have hbefore : LeadsIn lead := leadsIn_of_forall fun c hc _ ↦ isLayout_of_isSpace (hlead c hc)
    have hline : LeadsIn l := leadsIn_of_forall fun c hc hb ↦ isLayout_of_isSpace (hl c hc hb)
    exact hbefore.append (hline.append htail.filler.leadsIn)

/-- Blank lines become nothing but layout. -/
theorem skipLayout_eq_nil (h : Relaid ls ls') (hsep : IsLineBreak sep) (hls : Plain ls)
    (hblank : trimEnd (lined ['\n'] ls) = []) : skipLayout (lined sep ls') = [] := by
  rw [Text.trimEnd_eq_nil_iff] at hblank
  induction h with
  | nil | ended => rfl
  | filler hf h ih =>
    rw [lined_cons, ← List.append_assoc, hf.clear hsep]
    exact ih hls hblank
  | @line lead l tail ls ls' hlead htail h ih =>
    obtain ⟨hl, hls⟩ := List.forall_mem_cons.mp hls
    simp only [lined_cons, List.forall_mem_append] at hblank
    have hfiller : Filler (lead ++ (l ++ tail)) :=
      (htail.filler.append fun c hc ↦ hl c hc (hblank.1 c hc)).append hlead
    rw [lined_cons, ← List.append_assoc, hfiller.clear hsep]
    exact ih hls hblank.2.2

theorem respaced_append (hl : ∀ c ∈ l, Grammar.isBreak c = false) (h : Respaced w w') :
    Respaced (l ++ w) (l ++ w') := by
  induction l with
  | nil => exact h
  | cons c l ih =>
    obtain ⟨hc, hl⟩ := List.forall_mem_cons.mp hl
    exact .char hc (ih hl)

/-- Behind the last line that is not blank there is nothing but layout. -/
theorem exists_respaced_of_last (htail : LineTail tail) (hsep : IsLineBreak sep)
    (hl : ∀ c ∈ l, isBlank c = true → isSpace c = true) (hne : trimEnd l ≠ [])
    (hrest : skipLayout w = []) :
    ∃ t, trimEnd ((b ++ (l ++ tail)) ++ (sep ++ w)) = b ++ t ∧ Respaced (trimEnd l) t := by
  obtain ⟨blanks, hlast, hblanks⟩ := Text.exists_trimEnd_append l
  have hbehind : LineTail (blanks ++ tail) :=
    htail.append fun c hc ↦ hl c (hlast ▸ List.mem_append_right _ hc) (hblanks c hc)
  have hnil : skipLayout ((blanks ++ tail) ++ (sep ++ w)) = [] := by
    rw [← List.append_assoc, hbehind.filler.clear hsep, hrest]
  have hend : trimEnd (l ++ (tail ++ (sep ++ w))) =
      trimEnd l ++ trimEnd ((blanks ++ tail) ++ (sep ++ w)) := by
    rw [← Text.trimEnd_trimEnd_append hne]
    conv_lhs => rw [hlast]
    simp only [List.append_assoc]
  refine ⟨trimEnd (l ++ (tail ++ (sep ++ w))), ?_, ?_⟩
  · rw [← Text.trimEnd_append_of_ne_nil b (hend ▸ List.append_ne_nil_of_left_ne_nil hne _)]
    simp only [List.append_assoc]
  · have hhead : ∀ c, (trimEnd ((blanks ++ tail) ++ (sep ++ w))).head? = some c →
        isLayout c = true := by
      intro c hc
      obtain ⟨rest, hx, -⟩ := Text.exists_trimEnd_append ((blanks ++ tail) ++ (sep ++ w))
      have hfirst : ((blanks ++ tail) ++ (sep ++ w)).head? = some c := by
        rw [hx, List.head?_append, hc, Option.some_or]
      exact hbehind.isLayout_of_head hsep hfirst
    have hstop := respaced_append (fun c hc ↦ isBreak_of_blanks
      (hl c (hlast ▸ List.mem_append_left _ hc))) (.stop hhead (skipLayout_trimEnd_eq_nil hnil))
    rw [hend]
    rwa [List.append_nil] at hstop

/-- Behind layout the lines go on alike, up to the last character that is not blank. -/
theorem exists_respaced (h : Relaid ls ls') (hsep : IsLineBreak sep) (hls : Plain ls)
    (hne : trimEnd (lined ['\n'] ls) ≠ []) :
    ∃ more t, trimEnd (lined sep ls') = more ++ t ∧ Clear more ∧
      Respaced (trimEnd (lined ['\n'] ls)) t := by
  induction h with
  | nil | ended => exact absurd (by decide) hne
  | @filler f ls ls' hf h ih =>
    obtain ⟨more, t, hu, hmore, ht⟩ := ih hls hne
    have hlast : trimEnd (lined sep ls') ≠ [] :=
      hu ▸ List.append_ne_nil_of_right_ne_nil _ (ht.ne_nil hne)
    refine ⟨f ++ sep ++ more, t, ?_, (hf.clear hsep).append hmore, ht⟩
    rw [lined_cons, ← List.append_assoc, Text.trimEnd_append_of_ne_nil _ hlast, hu,
      List.append_assoc _ more t]
  | @line lead l tail ls ls' hlead htail h ih =>
    obtain ⟨hl, hls⟩ := List.forall_mem_cons.mp hls
    by_cases hrest : trimEnd (lined ['\n'] ls) = []
    -- The line is the last one that is not blank: the text ends within it.
    · have hend : trimEnd (lined ['\n'] (l :: ls)) = trimEnd l := by
        rw [lined_cons]
        refine Text.trimEnd_append_blanks l fun c hc ↦ ?_
        rcases List.mem_append.mp hc with hc | hc
        · rw [List.mem_singleton.mp hc]
          decide
        · exact Text.trimEnd_eq_nil_iff.mp hrest c hc
      rw [hend] at hne ⊢
      obtain ⟨t, hu, ht⟩ := exists_respaced_of_last htail hsep hl hne
        (h.skipLayout_eq_nil hsep hls hrest)
      exact ⟨lead, t, by rw [lined_cons, hu], clear_of_spaces hlead, ht⟩
    · obtain ⟨more, t, hu, hmore, ht⟩ := ih hls hrest
      have hlast : trimEnd (lined sep ls') ≠ [] :=
        hu ▸ List.append_ne_nil_of_right_ne_nil _ (ht.ne_nil hrest)
      refine ⟨lead, l ++ (tail ++ (sep ++ (more ++ t))), ?_, clear_of_spaces hlead, ?_⟩
      · rw [lined_cons, ← List.append_assoc, Text.trimEnd_append_of_ne_nil _ hlast, hu]
        simp only [List.append_assoc]
      · rw [lined_cons, ← List.append_assoc, Text.trimEnd_append_of_ne_nil _ hrest,
          List.append_assoc]
        exact respaced_append (fun c hc ↦ isBreak_of_blanks (hl c hc)) (.line htail hsep hmore ht)

/-- The files begin alike behind the layout at their start. -/
theorem atStart (h : Relaid ls ls') (hsep : IsLineBreak sep) (hls : Plain ls) :
    AtStart (skipLayout (Text.trim (['\n'].intercalate ls)))
      (skipLayout (Text.trim (sep.intercalate ls'))) := by
  have hsame : Relaid ls ls := refl ls
  rw [trim_intercalate (.inl rfl), trim_intercalate hsep,
    skipLayout_trim (hsame.leadsIn (.inl rfl) hls), skipLayout_trim (h.leadsIn hsep hls)]
  by_cases hblank : trimEnd (lined ['\n'] ls) = []
  · rw [hblank, skipLayout_trimEnd_eq_nil (h.skipLayout_eq_nil hsep hls hblank)]
    exact (@Respaced.stop [] (by simp) rfl).atStart
  · obtain ⟨more, t, hu, hmore, ht⟩ := h.exists_respaced hsep hls hblank
    rw [hu, hmore]
    exact ht.atStart

end Relaid

/-- The lines of a text have the characters of the text, without its line breaks. -/
theorem mem_and_ne_of_mem_splitOn {s l : List Char} {a c : Char} (h : l ∈ s.splitOn a)
    (hc : c ∈ l) : c ∈ s ∧ c ≠ a := by
  induction s generalizing l with
  | nil =>
    rw [List.splitOn_nil, List.mem_singleton] at h
    rw [h] at hc
    cases hc
  | cons d s ih =>
    obtain ⟨m, ms, hms⟩ := List.exists_cons_of_ne_nil (List.splitOn_ne_nil a s)
    rw [List.splitOn_cons_eq_if_modifyHead, hms] at h
    have hlater : ∀ m' ∈ m :: ms, c ∈ m' → c ∈ d :: s ∧ c ≠ a := fun m' hm' hcm' ↦
      (ih (hms ▸ hm') hcm').imp_left (List.mem_cons_of_mem d)
    split at h
    · rcases List.mem_cons.mp h with rfl | h
      · cases hc
      · exact hlater l h hc
    · next hd =>
      rcases List.mem_cons.mp h with rfl | h
      · rcases List.mem_cons.mp hc with rfl | hc
        · exact ⟨List.mem_cons_self, fun hca ↦ hd (beq_iff_eq.mpr hca)⟩
        · exact hlater m List.mem_cons_self hc
      · exact hlater l (List.mem_cons_of_mem m h) hc

/-- A file without other blanks than spaces and line feeds stays the same program with other layout,
with the same warnings. -/
theorem parse_of_relaid {source : String} {r : Program × List Warning}
    {lines : List (List Char)} {sep : List Char}
    (hblank : ∀ c ∈ source.toList, isBlank c = true → c = ' ' ∨ c = '\t' ∨ c = '\n')
    (hs : parse source = .ok r) (h : Relaid (source.toList.splitOn '\n') lines)
    (hsep : IsLineBreak sep) : parse (String.ofList (sep.intercalate lines)) = .ok r := by
  have hplain : Plain (source.toList.splitOn '\n') := by
    intro l hl c hc hb
    obtain ⟨hmem, hne⟩ := mem_and_ne_of_mem_splitOn hl hc
    rcases hblank c hmem hb with rfl | rfl | rfl
    · rfl
    · rfl
    · exact absurd rfl hne
  have hstart := h.atStart hsep hplain
  rw [List.intercalate_splitOn] at hstart
  refine parse_of_atStart ?_ hs
  rwa [String.toList_ofList]

/-- A machine that accepts at a slash. -/
def slash : Program where
  name := "a"
  mode := .normal
  machine := ((Machine.blank 1 ⟨0⟩).addSymbol ⟨'/', .refl true⟩).define
    ⟨⟨⟨0⟩, ⟨'/', .refl true⟩⟩, ⟨⟨0⟩, ⟨'/', .refl true⟩, .accept⟩⟩
  runs := []

/-- It stays the same with comments, blanks and other line breaks. -/
theorem parse_of_relaid_slash :
    let source := "name: a\nstates: 1\ntransitions:\n(0,/)->(0,/,Y)\n"
    let lines := ["// A slash.".toList, "\t".toList ++ ("name: a".toList ++ " // b // c".toList),
      "states: 1".toList, "  ".toList, "transitions:".toList ++ "\t//".toList, "\t//(0,/)".toList,
      " ".toList ++ "(0,/)->(0,/,Y)".toList]
    parse source = .ok (slash, []) ∧
      parse (String.ofList (['\r', '\n'].intercalate lines)) = .ok (slash, []) := by
  intro source lines
  have hparse : parse source = .ok (slash, []) := by decide
  have hsplit : source.toList.splitOn '\n' = ["name: a".toList, "states: 1".toList,
      "transitions:".toList, "(0,/)->(0,/,Y)".toList, []] := by
    decide
  have hspaces : ∀ w : List Char, w.all isSpace = true → ∀ c ∈ w, isSpace c = true :=
    fun _ ↦ List.all_eq_true.mp
  have hline : ∀ w : List Char, (w.all fun c ↦ !Grammar.isBreak c) = true →
      ∀ c ∈ w, Grammar.isBreak c = false :=
    fun w h c hc ↦ by simpa using List.all_eq_true.mp h c hc
  have hfiller : ∀ w text : List Char, w.all isSpace = true →
      (text.all fun c ↦ !Grammar.isBreak c) = true → Filler (w ++ '/' :: '/' :: text) :=
    fun w text hw ht ↦ .comment (hspaces w hw) (hline text ht)
  have hnone : LineTail [] := ⟨.blanks (by simp), by simp⟩
  have hlaid : Relaid (source.toList.splitOn '\n') lines := by
    rw [hsplit]
    exact .filler (hfiller [] " A slash.".toList rfl rfl) <|
      .line (hspaces _ rfl) ⟨hfiller " ".toList " b // c".toList rfl rfl, by simp [isSpace]⟩ <|
      @Relaid.line [] _ [] _ _ (hspaces _ rfl) hnone <|
      .filler (.blanks (hspaces _ rfl)) <|
      @Relaid.line [] _ _ _ _ (hspaces _ rfl)
        ⟨hfiller "\t".toList [] rfl rfl, by simp [isSpace]⟩ <|
      .filler (hfiller "\t".toList "(0,/)".toList rfl rfl) <|
      @Relaid.line _ _ [] _ _ (hspaces _ rfl) hnone .ended
  have hblank : ∀ c ∈ source.toList, isBlank c = true → c = ' ' ∨ c = '\t' ∨ c = '\n' := by
    have hall : (source.toList.all fun c ↦ !isBlank c || c = ' ' || c = '\t' || c = '\n') =
        true := by decide
    intro c hc hb
    simpa [hb, or_assoc] using List.all_eq_true.mp hall c hc
  exact ⟨hparse, parse_of_relaid hblank hparse hlaid (.inr rfl)⟩

end TapeMachine.Definition
