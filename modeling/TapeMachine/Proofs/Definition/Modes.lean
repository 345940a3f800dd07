import TapeMachine.Proofs.Definition.Places

/-!
# Files that differ in their mode

Two files that differ only in the name of the mode in one mode section are read alike
(`sections_of_differInMode`): both are refused at the same place with the same rules expected, or
the sections that are read are the same but for that mode. Before the section, and up to the name of
the mode, no part of the grammar can tell the files apart; and behind it they are the same.
-/

namespace TapeMachine.Definition

open Peg (Cursor DifferIn Misses Refuses Reply Takes)

variable {α : Type}

/-! ### Mode sections -/

/-- The names of the modes are equally long. -/
theorem length_writtenMode (m : Mode) : (writtenMode m).length = 6 := by
  cases m <;> rfl

/-- The name of a mode does not begin within that of another. -/
theorem not_prefix_drop_mode (m m' : Mode) {k : Nat} (hk : k < 5) (rest : List Char) :
    ¬writtenMode m <+: (writtenMode m' ++ rest).drop (k + 1) := by
  have hfirst : ∀ a, (writtenMode m).head? = some a → a ∉ (writtenMode m').tail := by
    intro a ha
    cases m <;> cases m' <;> cases ha <;> decide
  have hlt : k + 1 < (writtenMode m').length := by
    rw [length_writtenMode]
    omega
  rintro ⟨tail, htail⟩
  have hhead : (writtenMode m).head? = some (writtenMode m')[k + 1] := by
    have hne : writtenMode m ≠ [] := by
      rw [← List.length_pos_iff, length_writtenMode]
      decide
    rw [← List.head?_append_of_ne_nil _ hne, htail, List.head?_drop, List.getElem?_append_left hlt,
      List.getElem?_eq_getElem hlt]
  refine hfirst _ hhead ?_
  have htailLt : k < (writtenMode m').tail.length := by
    rw [List.length_tail]
    omega
  exact List.mem_iff_getElem.mpr ⟨k, htailLt, List.getElem_tail htailLt⟩

/-- The letters of the names of the modes. -/
def modeLetters : List Char := writtenMode .normal ++ writtenMode .strict

/-- A file with a mode section in it, but for the name of the mode. -/
structure ModeFile where
  /-- What stands before the mode section. -/
  before : List Char
  /-- What stands between the keyword and the name of the mode. -/
  blanks : List Char
  /-- What stands behind the name of the mode. -/
  after : List Char
  /-- The keyword and the name are apart by blanks and tabs only. -/
  isBlank : ∀ a ∈ blanks, a = ' ' ∨ a = '\t'

namespace ModeFile

/-- What stands before the name of the mode. -/
def lead (f : ModeFile) : List Char := f.before ++ "mode:".toList ++ f.blanks

/-- The text of the file with the name of a mode. -/
def text (f : ModeFile) (m : Mode) : List Char := f.lead ++ (writtenMode m ++ f.after)

/-- An expression is steady at a place of the two texts of a file. -/
abbrev Steady (f : ModeFile) (e : Grammar.Expr α) (pos : Nat) : Prop :=
  Peg.Steady (f.text .normal) (f.text .strict) f.lead.length e pos

variable {f : ModeFile} {pos : Nat}

/-- The texts differ only in letters of the mode. -/
theorem differIn (f : ModeFile) :
    DifferIn modeLetters f.lead.length (f.text .normal) (f.text .strict) := by
  have hlen : (writtenMode .normal).length = (writtenMode .strict).length := by
    rw [length_writtenMode, length_writtenMode]
  refine Peg.differIn_append hlen (fun a ha ↦ ?_) (fun a ha ↦ ?_) _ _
  · exact List.mem_append_left _ ha
  · exact List.mem_append_right _ ha

/-- The name of the mode stands behind the start of the mode section. -/
theorem length_before_le (f : ModeFile) : f.before.length ≤ f.lead.length := by
  rw [lead, List.append_assoc, List.length_append]
  exact Nat.le_add_right _ _

/-- The mode section lies before the end of the file. -/
theorem length_before_lt (f : ModeFile) (m : Mode) : f.before.length < (f.text m).length := by
  have hle := f.length_before_le
  have hlen := length_writtenMode m
  simp only [text, List.length_append]
  omega

/-- Behind the name of the mode there is what follows it. -/
theorem atPos_behind (f : ModeFile) (m : Mode) :
    Cursor.atPos (f.text m) (f.lead.length + 6) = ⟨f.after, f.lead.length + 6⟩ := by
  rw [Cursor.atPos, text, ← length_writtenMode m, List.drop_length_add_append, List.drop_left]

/-! ### Steady parts -/

/-- What tells none of the letters apart is steady. -/
theorem steady_of_blindTo {e : Grammar.Expr α} (he : e.blindTo modeLetters = true) (pos : Nat) :
    f.Steady e pos :=
  Peg.steady_of_blindTo f.differIn he pos

/-- A keyword is steady as long as the mode section has not been passed. -/
theorem steady_keyword {keyword : String} (hk : ':' ∉ keyword.toList.dropLast)
    (hpos : pos ≤ f.before.length) : f.Steady (.literal keyword) pos := by
  have hcolon : (f.before ++ "mode:".toList).getLast? = some ':' := by
    rw [List.getLast?_append_of_ne_nil _ (by decide)]
    rfl
  have hlt : pos < (f.before ++ "mode:".toList).length := by
    have hlen : "mode:".toList.length = 5 := rfl
    rw [List.length_append]
    omega
  simp only [Steady, text, lead, List.append_assoc _ f.blanks]
  exact Peg.steady_literal_of_common hcolon hk hlt

/-- Before the name of the mode there is a colon, a blank or a tab. -/
theorem exists_getLast?_lead (f : ModeFile) :
    ∃ a, f.lead.getLast? = some a ∧ (a = ':' ∨ a = ' ' ∨ a = '\t') := by
  cases hlast : f.blanks.getLast? with
  | none =>
    refine ⟨':', ?_, .inl rfl⟩
    rw [lead, List.getLast?_eq_none_iff.mp hlast, List.append_nil,
      List.getLast?_append_of_ne_nil _ (by decide)]
    rfl
  | some a =>
    have hne : f.blanks ≠ [] := by
      intro hnil
      rw [hnil] at hlast
      cases hlast
    refine ⟨a, ?_, .inr (f.isBlank a (List.mem_of_getLast? hlast))⟩
    rw [lead, List.getLast?_append_of_ne_nil _ hne, hlast]

/-- The name of a mode is steady but where the mode stands. -/
theorem steady_modeName {name : String} {m : Mode} (hname : name.toList = writtenMode m)
    (hpos : pos ≠ f.lead.length) : f.Steady (.literal name) pos := by
  rcases Nat.lt_or_gt_of_ne hpos with hlt | hgt
  · obtain ⟨a, ha, hcases⟩ := f.exists_getLast?_lead
    refine Peg.steady_literal_of_common ha ?_ hlt
    rw [hname]
    rcases hcases with rfl | rfl | rfl <;> cases m <;> decide
  · obtain ⟨k, rfl⟩ := Nat.exists_eq_add_of_lt hgt
    apply Peg.steady_literal
    rw [hname, text, text, Nat.add_assoc, List.drop_length_add_append, List.drop_length_add_append]
    by_cases hk : k < 5
    · exact iff_of_false (not_prefix_drop_mode m _ hk _) (not_prefix_drop_mode m _ hk _)
    · have hdrop (m' : Mode) : (writtenMode m' ++ f.after).drop (k + 1) = f.after.drop (k - 5) := by
        have hle : (writtenMode m').length ≤ k + 1 := by
          rw [length_writtenMode]
          omega
        rw [List.drop_append, List.drop_eq_nil_of_le hle, List.nil_append, length_writtenMode]
        congr 1
      rw [hdrop, hdrop]

/-- Where the mode stands its name is read. -/
theorem scan_modeValue (f : ModeFile) (m : Mode) (rounds : Nat) (misses : Misses RuleName) :
    Grammar.modeValue.scan rounds (.atPos (f.text m) f.lead.length) misses =
      .matched ⟨m, f.lead.length, f.lead.length + 6⟩ (.atPos (f.text m) (f.lead.length + 6))
        misses := by
  rw [atPos_behind, Cursor.atPos, text, List.drop_left]
  cases m <;> rfl

/-- The mode is steady. -/
theorem steady_modeValue (pos : Nat) : f.Steady Grammar.modeValue pos := by
  by_cases hpos : pos = f.lead.length
  · subst hpos
    intro rounds misses
    rw [scan_modeValue, scan_modeValue]
    exact .matched misses (Nat.le_add_right _ _) fun hle ↦ absurd hle (by omega)
  · have hname {name : String} {m : Mode} (h : name.toList = writtenMode m) :
        f.Steady (.literal name) pos :=
      steady_modeName h hpos
    exact (((hname (m := .normal) rfl).map _).choice ((hname (m := .strict) rfl).map _)).rule _

/-- A section is steady as long as the mode section has not been passed, if what its keyword
introduces is. -/
theorem steady_section {kind : RuleName} {keyword : String} {part : Grammar.Expr α}
    (g : α → Section) (hk : ':' ∉ keyword.toList.dropLast) (hpos : pos ≤ f.before.length)
    (hpart : ∀ q, f.Steady part q) :
    f.Steady (.rule kind ((Grammar.after keyword part).map g)) pos :=
  (((steady_keyword hk hpos).right fun q _ ↦
    (steady_of_blindTo rfl q).right fun q _ ↦ hpart q).map g).rule kind

/-- Sections of all kinds are steady as long as the mode section has not been passed. -/
theorem steady_anySection (hpos : pos ≤ f.before.length) : f.Steady Grammar.anySection pos :=
  (steady_section _ (by decide) hpos (steady_of_blindTo (by decide))).choice <|
  (steady_section _ (by decide) hpos steady_modeValue).choice <|
  (steady_section _ (by decide) hpos (steady_of_blindTo (by decide))).choice <|
  (steady_section _ (by decide) hpos (steady_of_blindTo (by decide))).choice <|
  (steady_section _ (by decide) hpos (steady_of_blindTo (by decide))).choice <|
  (steady_section _ (by decide) hpos (steady_of_blindTo (by decide))).choice <|
  steady_section _ (by decide) hpos (steady_of_blindTo (by decide))

/-- A section with the line breaks behind it is steady as long as the mode section has not been
passed. -/
theorem steady_sectionBlock (hpos : pos ≤ f.before.length) : f.Steady sectionBlock pos :=
  ((steady_anySection hpos).seq fun q _ ↦ steady_of_blindTo (by decide) q).map Prod.fst

/-- The mode section is read where it stands. -/
theorem outcome_modeSection (f : ModeFile) (m : Mode) :
    Grammar.anySection.outcome (.atPos (f.text m) f.before.length) =
      some (⟨.mode m, f.before.length, f.lead.length + 6⟩,
        .atPos (f.text m) (f.lead.length + 6)) := by
  have hsolid : Solid (writtenMode m ++ f.after) := by
    cases m <;> exact solid_cons (by decide) _
  have hvalue : (Grammar.gap.right Grammar.modeValue).Takes (f.blanks ++ writtenMode m) f.after
      fun v ↦ v.value = m :=
    (takes_gap f.isBlank hsolid).right (takes_modeValue m f.after)
  have hsection : ((Grammar.after "mode:" Grammar.modeValue).map fun v ↦
      Section.mode v.value).Takes ("mode:".toList ++ (f.blanks ++ writtenMode m)) f.after
        fun x ↦ x = .mode m :=
    ((Takes.literal "mode:" _).right hvalue).map fun v hv ↦ by rw [hv]
  have hname : (Peg.rule RuleName.name ((Grammar.after "name:" Grammar.text).map fun t ↦
      Section.name t.value)).Refuses
        ("mode:".toList ++ (f.blanks ++ writtenMode m) ++ f.after) := by
    refine (((Refuses.literal ?_).right _).map).rule
    intro h
    exact absurd (List.cons_prefix_cons.mp h).1 (by decide)
  obtain ⟨x, hx, rfl⟩ := hsection f.before.length
  have hplace : Cursor.atPos (f.text m) f.before.length =
      ⟨"mode:".toList ++ (f.blanks ++ writtenMode m) ++ f.after, f.before.length⟩ := by
    simp only [Cursor.atPos, text, lead, List.append_assoc, List.drop_left]
  have hnext : Cursor.atPos (f.text m) (f.lead.length + 6) =
      ⟨f.after, f.before.length + ("mode:".toList ++ (f.blanks ++ writtenMode m)).length⟩ := by
    rw [atPos_behind, ← length_writtenMode m]
    simp only [lead, List.length_append, Nat.add_assoc]
  have hstop : f.lead.length + 6 =
      f.before.length + ("mode:".toList ++ (f.blanks ++ writtenMode m)).length :=
    congrArg Cursor.pos hnext
  have hmode : (Peg.rule RuleName.mode ((Grammar.after "mode:" Grammar.modeValue).map fun v ↦
      Section.mode v.value)).outcome
        ⟨"mode:".toList ++ (f.blanks ++ writtenMode m) ++ f.after, f.before.length⟩ =
      some (⟨.mode m, f.before.length, f.lead.length + 6⟩,
        .atPos (f.text m) (f.lead.length + 6)) := by
    rw [Peg.outcome, hx, hnext, hstop]
    rfl
  rw [hplace, Grammar.anySection, Peg.outcome, hname f.before.length, Option.none_or, Peg.outcome,
    hmode, Option.some_or]

end ModeFile

/-! ### Lists of sections -/

/-- The lists are the same but for the mode of one section, which is normal in the first and strict
in the second. -/
def ModeApart (xs ys : List (Located Section)) : Prop :=
  ∃ front span back, xs = front ++ ⟨.mode .normal, span⟩ :: back ∧
    ys = front ++ ⟨.mode .strict, span⟩ :: back

namespace ModeFile

/-- The two texts are read alike from a place on: either the lists of sections end before the name
of the mode, at the same place, or the mode section has been passed and the lists go on alike. -/
inductive ReadAlike (f : ModeFile) :
    Reply RuleName (List (Located Section)) → Reply RuleName (List (Located Section)) → Prop
  | stopped (xs : List (Located Section)) (mid : Nat) {pos : Nat} (m : Misses RuleName) :
      Grammar.gap.outcome (.atPos (f.text .normal) mid) = some ((), .atPos (f.text .normal) pos) →
      pos ≤ f.before.length →
      ReadAlike f (.matched xs (.atPos (f.text .normal) mid) m)
        (.matched xs (.atPos (f.text .strict) mid) m)
  | passed {xs ys : List (Located Section)} (last : Cursor) (m : Misses RuleName) :
      ModeApart xs ys → ReadAlike f (.matched xs last m) (.matched ys last m)

/-- From a place where a section is looked for the two texts are read alike, whatever has been read
before, if there are rounds enough. -/
def ResumesAlike (f : ModeFile) (pos : Nat) : Prop :=
  ∀ rounds n held mid m, (f.text .normal).length < rounds → (f.text .normal).length - pos < n →
    Grammar.gap.outcome (.atPos (f.text .normal) mid) = some ((), .atPos (f.text .normal) pos) →
    f.ReadAlike (resume (f.text .normal) rounds n held mid pos m)
      (resume (f.text .strict) rounds n held mid pos m)

variable {f : ModeFile} {pos : Nat}

/-- Where there is no section the two texts are read alike. -/
theorem resumesAlike_of_none (hpos : pos ≤ f.before.length)
    (h : Grammar.anySection.outcome (.atPos (f.text .normal) pos) = none) :
    f.ResumesAlike pos := by
  intro rounds n held mid m hr _ hgap
  have hnone : sectionBlock.outcome (.atPos (f.text .normal) pos) = none := by
    rw [sectionBlock, Grammar.pair, Peg.outcome, Peg.outcome, h]
    rfl
  obtain ⟨m', hs, ht⟩ := (steady_sectionBlock hpos).scan_of_outcome_none rfl hr hnone m
  rw [resume, resume, hs, ht]
  exact .stopped held.reverse mid m' hgap hpos

/-- Where the mode section stands the two texts are read alike. -/
theorem resumesAlike_at_mode (f : ModeFile) : f.ResumesAlike f.before.length := by
  intro rounds n held mid m hr _ hgap
  have hlen := f.differIn.length_eq
  obtain ⟨x, m', hs, ht, -⟩ := (steady_anySection (Nat.le_refl _)).scan_of_outcome_some rfl hr
    (f.outcome_modeSection .normal) m
  obtain rfl : x = ⟨.mode .strict, f.before.length, f.lead.length + 6⟩ := by
    have ho := Peg.outcome_of_scan_matched rfl (Cursor.length_rest_lt (hlen ▸ hr) _) ht
    rw [f.outcome_modeSection .strict] at ho
    cases ho
    rfl
  -- Behind the name of the mode there is one cursor for both texts.
  rw [atPos_behind] at hs ht
  have hblock {t : List Char} {x : Located Section} {c : Cursor}
      (h : Grammar.anySection.scan rounds (.atPos t f.before.length) m = .matched x c m') :
      sectionBlock.scan rounds (.atPos t f.before.length) m =
        (((Grammar.gap.right (Grammar.list Grammar.lineBreak)).scan rounds c m').map
          (Prod.mk x)).map Prod.fst := by
    rw [sectionBlock, Grammar.pair, Peg.scan_map, Peg.scan_seq_of_matched h]
  rw [resume, resume, hblock hs, hblock ht]
  cases (Grammar.gap.right (Grammar.list Grammar.lineBreak)).scan rounds
      ⟨f.after, f.lead.length + 6⟩ m' with
  | refused m'' => exact .stopped held.reverse mid m'' hgap (Nat.le_refl _)
  | matched breaks c m'' =>
    obtain ⟨back, last, m₃, h⟩ :=
      exists_scanMany ((Grammar.gap.right sectionBlock).scan rounds) n c m''
    simp only [Reply.map, h, List.reverse_cons, List.append_assoc, List.singleton_append]
    exact .passed last m₃ ⟨held.reverse, _, back, rfl, rfl⟩

/-- If the two texts are read alike from the place behind a section, then also from its own. -/
theorem ResumesAlike.step {x : Located Section} {mid next : Nat} (h : f.ResumesAlike next)
    (hblock : sectionBlock.outcome (.atPos (f.text .normal) pos) =
      some (x, .atPos (f.text .normal) mid))
    (hgap : Grammar.gap.outcome (.atPos (f.text .normal) mid) =
      some ((), .atPos (f.text .normal) next))
    (hnext : next ≤ f.before.length) : pos < next ∧ f.ResumesAlike pos := by
  have hmid : pos < mid := (Cursor.le_of_outcome hblock).2 rfl
  have hle : mid ≤ next := (Cursor.le_of_outcome hgap).1
  have hlead := f.length_before_le
  have hlength := f.length_before_lt .normal
  refine ⟨by omega, fun rounds n held place m hr hn _ ↦ ?_⟩
  obtain ⟨y, m₁, hs, ht, hxy⟩ :=
    (steady_sectionBlock (by omega)).scan_of_outcome_some rfl hr hblock m
  obtain rfl := hxy (by omega)
  obtain ⟨u, m₂, hs', ht', -⟩ :=
    (steady_of_blindTo (e := Grammar.gap) rfl mid).scan_of_outcome_some rfl hr hgap m₁
  obtain ⟨n, rfl⟩ : ∃ k, n = k + 1 := ⟨n - 1, by omega⟩
  rw [resume, resume, hs, ht]
  simp only [scanMany_eq_resume hs', scanMany_eq_resume ht']
  exact h rounds n (x :: held) mid m₂ hr (by omega) hgap

/-- If a section is looked for at a place up to the mode section, and from there on the two texts
are read alike, then they are read alike from the first place. -/
theorem exists_resumesAlike_of_looksAt (hlooks : LooksAt (f.text .normal) pos)
    (hpos : pos ≤ f.before.length) (h : f.ResumesAlike pos) :
    ∃ x first, opening.outcome (.atPos (f.text .normal) 0) =
      some (x, .atPos (f.text .normal) first) ∧ f.ResumesAlike first := by
  induction hlooks with
  | @first x pos hopen => exact ⟨x, pos, hopen, h⟩
  | @next x pos mid next _ hblock hgap ih =>
    obtain ⟨hlt, hstep⟩ := h.step hblock hgap hpos
    exact ih (by omega) hstep

/-- If the mode section is looked for, or the reader stops before, then the two texts are read alike
from the first place where a section is looked for. -/
theorem exists_resumesAlike (h : OpensSection (f.text .normal) f.before.length) :
    ∃ x first, opening.outcome (.atPos (f.text .normal) 0) =
      some (x, .atPos (f.text .normal) first) ∧ f.ResumesAlike first := by
  obtain ⟨q, hq, hlooks, rfl | hnone⟩ := h
  · exact exists_resumesAlike_of_looksAt hlooks hq f.resumesAlike_at_mode
  · exact exists_resumesAlike_of_looksAt hlooks hq (resumesAlike_of_none hq hnone)

/-- Texts whose sections are read alike are read alike to their ends. -/
theorem ReadAlike.fileOf {rounds : Nat} {c c' : Cursor} {m : Misses RuleName}
    (hr : (f.text .normal).length < rounds)
    (h : f.ReadAlike ((Grammar.list sectionBlock).scan rounds c m)
      ((Grammar.list sectionBlock).scan rounds c' m)) :
    (∃ m', fileOf (body.scan rounds c m) = .error m' ∧ fileOf (body.scan rounds c' m) = .error m') ∨
      ∃ xs ys, fileOf (body.scan rounds c m) = .ok xs ∧ fileOf (body.scan rounds c' m) = .ok ys ∧
        ModeApart xs ys := by
  have hbody {c last : Cursor} {xs : List (Located Section)} {m' : Misses RuleName}
      (h : (Grammar.list sectionBlock).scan rounds c m = .matched xs last m') :
      body.scan rounds c m = ((Grammar.gap.right (.rule .endOfInput .ends)).scan rounds last m').map
        (Prod.mk xs) := by
    rw [body, Grammar.pair, Peg.scan_seq_of_matched h]
  generalize hs : (Grammar.list sectionBlock).scan rounds c m = r at h
  generalize ht : (Grammar.list sectionBlock).scan rounds c' m = r' at h
  cases h with
  | @stopped xs mid pos m' hgap hpos =>
    -- The end of the file is looked for before its last character, so it is refused.
    have hend : (Peg.rule RuleName.endOfInput .ends : Grammar.Expr (Located Unit)).outcome
        (.atPos (f.text .normal) pos) = none := by
      have hlength := f.length_before_lt .normal
      have hne : (f.text .normal).drop pos ≠ [] := by
        rw [ne_eq, List.drop_eq_nil_iff]
        omega
      rw [Peg.outcome, Peg.outcome, Cursor.atPos_rest, if_neg hne]
      rfl
    obtain ⟨u, m₁, hs₁, ht₁, -⟩ :=
      (steady_of_blindTo (e := Grammar.gap) rfl mid).scan_of_outcome_some rfl hr hgap m'
    obtain ⟨m₂, hs₂, ht₂⟩ := (steady_of_blindTo rfl pos).scan_of_outcome_none rfl hr hend m₁
    rw [hbody hs, hbody ht, Peg.scan_right_of_matched hs₁, Peg.scan_right_of_matched ht₁, hs₂, ht₂]
    exact .inl ⟨_, rfl, rfl⟩
  | @passed xs ys last m' hapart =>
    rw [hbody hs, hbody ht]
    cases (Grammar.gap.right (.rule .endOfInput .ends)).scan rounds last m' with
    | refused m'' => exact .inl ⟨_, rfl, rfl⟩
    | matched u c m'' => exact .inr ⟨xs, ys, rfl, rfl, hapart⟩

/-- If the mode section is looked for, or the reader stops before, then both texts are refused
alike, or their sections are the same but for the mode. -/
theorem sections_text (h : OpensSection (f.text .normal) f.before.length) :
    (∃ e, sections (f.text .normal) = .error e ∧ sections (f.text .strict) = .error e) ∨
      ∃ xs ys, sections (f.text .normal) = .ok xs ∧ sections (f.text .strict) = .ok ys ∧
        ModeApart xs ys := by
  have hlen := f.differIn.length_eq
  obtain ⟨x, first, hopen, hfirst⟩ := exists_resumesAlike h
  obtain ⟨y, m, hs, ht, -⟩ := (steady_of_blindTo (by decide) 0).scan_of_outcome_some rfl
    (Nat.lt_succ_self _) hopen .none
  have halike := hfirst _ _ [] first m (Nat.lt_succ_self _) (Nat.lt_succ_of_le (Nat.sub_le _ _))
    (LooksAt.first hopen).outcome_gap
  rw [← scan_list_eq_resume, ← scan_list_eq_resume] at halike
  rw [sections, sections, read_file_eq hs, read_file_eq (hlen ▸ ht), ← hlen]
  rcases halike.fileOf (Nat.lt_succ_self _) with ⟨m', he, he'⟩ | ⟨xs, ys, hx, hy, h⟩
  · rw [he, he']
    exact .inl ⟨_, rfl, rfl⟩
  · rw [hx, hy]
    exact .inr ⟨xs, ys, rfl, rfl, h⟩

/-! ### Blank characters around files -/

/-- The file without the blank characters around it. -/
def trim (f : ModeFile) : ModeFile :=
  { f with before := Text.trimStart f.before, after := Text.trimEnd f.after }

/-- The blank characters around a file lie before and behind its mode section. -/
theorem trim_text (f : ModeFile) (m : Mode) : Text.trim (f.text m) = f.trim.text m := by
  obtain ⟨init, a, hm, ha⟩ : ∃ init a, writtenMode m = init ++ [a] ∧ Text.isBlank a = false := by
    cases m
    · exact ⟨"norma".toList, 'l', rfl, rfl⟩
    · exact ⟨"stric".toList, 't', rfl, rfl⟩
  have hstart : Text.trimStart (f.text m) = f.trim.lead ++ (writtenMode m ++ f.after) := by
    simp only [text, lead, trim, List.append_assoc]
    exact Text.trimStart_append f.before (c := 'm') rfl _
  rw [Text.trim, hstart, text, hm, List.append_assoc, List.append_assoc, List.singleton_append,
    List.singleton_append, ← List.append_assoc, ← List.append_assoc, Text.trimEnd_append _ ha]
  rfl

end ModeFile

/-! ### Files -/

/-- The sources differ only in the mode of one mode section, which is normal in the first and strict
in the second. The section counts as one if the reader, which leaves out the blank characters around
a file, looks for it there or stops before. -/
def DifferInMode (source source' : String) : Prop :=
  ∃ f : ModeFile, source.toList = f.text .normal ∧ source'.toList = f.text .strict ∧
    OpensSection (Text.trim source.toList) (Text.trimStart f.before).length

/-- Without the blank characters around them the sources still differ only in their mode. -/
theorem DifferInMode.exists_trim {source source' : String} (h : DifferInMode source source') :
    ∃ f : ModeFile, Text.trim source.toList = f.text .normal ∧
      Text.trim source'.toList = f.text .strict ∧
        OpensSection (f.text .normal) f.before.length := by
  obtain ⟨f, hs, ht, hopens⟩ := h
  rw [hs, f.trim_text] at hopens
  exact ⟨f.trim, by rw [hs, f.trim_text], by rw [ht, f.trim_text], hopens⟩

/-- Sources that differ only in their mode are refused alike, or their sections are the same but for
the mode. -/
theorem sections_of_differInMode {source source' : String} (h : DifferInMode source source') :
    (∃ e, sections (Text.trim source.toList) = .error e ∧
      sections (Text.trim source'.toList) = .error e) ∨
    ∃ xs ys, sections (Text.trim source.toList) = .ok xs ∧
      sections (Text.trim source'.toList) = .ok ys ∧ ModeApart xs ys := by
  obtain ⟨f, hs, ht, hopens⟩ := h.exists_trim
  rw [hs, ht]
  exact ModeFile.sections_text hopens

end TapeMachine.Definition
