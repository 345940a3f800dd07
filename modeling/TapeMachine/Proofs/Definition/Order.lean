import Mathlib.Data.List.Perm.Basic
import TapeMachine.Proofs.Definition.Blocks
import TapeMachine.Proofs.Definition.Relaid

/-!
# Sections in another order

The order of the sections of a file does not matter. A block is a text with one section, layout and
all; a file of blocks has their sections, whatever stands next to what, and sections of different
kinds say the same together in every order. So blocks in another order are the same program, with
the same warnings (`parse_of_perm`).
-/

namespace TapeMachine.Definition

open Text (isBlank trimEnd)
open Peg (Cursor)

/-- The text is one section: it begins with the keyword of the section, and read as a file of its
own it has no other. -/
def IsBlock (b : List Char) : Prop :=
  ∃ s : Located Section, (s.value.kind.keyword ++ ":").toList <+: b ∧
    sections (Text.trim b) = .ok [s]

variable {b : List Char} {blocks blocks' : List (List Char)} {s : Section} {ss : List Section}

/-! ### Blocks -/

/-- The text is read as a section with these parts, also without the blanks at its end. -/
structure BlockOf (b : List Char) (s : Section) : Prop where
  whole : ReadsAs b s
  trimmed : ReadsAs (trimEnd b) s

theorem isBlank_lower {a : Char} (h : a.isLower = true) : isBlank a = false := by
  have h : (decide ('a'.val ≤ a.val) && decide (a.val ≤ 'z'.val)) = true := h
  simp only [Bool.and_eq_true, decide_eq_true_eq, UInt32.le_iff_toNat_le] at h
  have hlow : 97 ≤ a.toNat := h.1
  have hhigh : a.toNat ≤ 122 := h.2
  simp only [Text.isBlank, Text.inRanges, Text.blankRanges, List.any_cons, List.any_nil,
    Bool.or_false, Bool.or_eq_false_iff, Bool.and_eq_false_iff, decide_eq_false_iff_not]
  omega

/-- A small letter at the start stays when blanks are removed. -/
theorem BeginsSmall.trimEnd (h : BeginsSmall b) : BeginsSmall (trimEnd b) := by
  obtain ⟨a, rest, rfl, ha⟩ := h
  exact ⟨a, Text.trimEnd rest, Text.trimEnd_append [] (isBlank_lower ha) rest, ha⟩

theorem BeginsSmall.trim_eq (h : BeginsSmall b) : Text.trim b = Text.trimEnd b := by
  obtain ⟨a, rest, rfl, ha⟩ := h
  rw [Text.trim, Text.trimStart, List.dropWhile_cons_of_neg (by simp [isBlank_lower ha])]

/-- A keyword begins with a small letter. -/
theorem beginsSmall_of_keyword {k : SectionKind} (h : (k.keyword ++ ":").toList <+: b) :
    BeginsSmall b := by
  obtain ⟨rest, rfl⟩ := h
  cases k <;> exact ⟨_, _, rfl, by decide⟩

/-- A block is read as its section. -/
theorem IsBlock.exists_blockOf (h : IsBlock b)
    (hblank : ∀ c ∈ b, isBlank c = true → c = ' ' ∨ c = '\t' ∨ c = '\n') : ∃ s, BlockOf b s := by
  obtain ⟨x, hkeyword, hx⟩ := h
  have hb := beginsSmall_of_keyword hkeyword
  obtain ⟨next, hread, hnext⟩ := outcome_of_sections hb.trimEnd (hb.trim_eq ▸ hx)
  obtain ⟨blanks, heq, hblanks⟩ := Text.exists_trimEnd_append b
  have hreturn : '\r' ∉ trimEnd b := by
    intro hmem
    have hcases := hblank '\r' (heq ▸ List.mem_append_left _ hmem) (by decide)
    revert hcases
    decide
  have hlayout : ∀ a ∈ blanks, isLayout a = true := by
    intro a ha
    rcases hblank a (heq ▸ List.mem_append_right _ ha) (hblanks a ha) with rfl | rfl | rfl <;> rfl
  have hsame := respaced_append_layout (t := []) hreturn (by simp)
  have hlonger := respaced_append_layout hreturn hlayout
  rw [List.append_nil] at hsame
  rw [← heq] at hlonger
  exact ⟨x.value, readsAs_of_respaced hb.trimEnd hb hlonger hread hnext,
    readsAs_of_respaced hb.trimEnd hb.trimEnd hsame hread hnext⟩

/-- Blocks are read as their sections. -/
theorem exists_blocksOf (h : ∀ b ∈ blocks, IsBlock b)
    (hblank : ∀ b ∈ blocks, ∀ c ∈ b, isBlank c = true → c = ' ' ∨ c = '\t' ∨ c = '\n') :
    ∃ ss, List.Forall₂ BlockOf blocks ss := by
  induction blocks with
  | nil => exact ⟨[], .nil⟩
  | cons b blocks ih =>
    obtain ⟨hb, h⟩ := List.forall_mem_cons.mp h
    obtain ⟨hbb, hblank⟩ := List.forall_mem_cons.mp hblank
    obtain ⟨s, hs⟩ := hb.exists_blockOf hbb
    obtain ⟨ss, hss⟩ := ih h hblank
    exact ⟨s :: ss, .cons hs hss⟩

/-- Blanks at the end of a file are those of its last block. -/
theorem trimEnd_intercalate (h : List.Forall₂ BlockOf blocks ss) (hne : blocks ≠ []) :
    ∃ ws, trimEnd (['\n'].intercalate blocks) = ['\n'].intercalate ws ∧
      List.Forall₂ ReadsAs ws ss ∧ ws ≠ [] := by
  induction h with
  | nil => exact absurd rfl hne
  | @cons b s blocks ss hb hblocks ih =>
    cases hblocks with
    | nil => exact ⟨[trimEnd b], by simp, .cons hb.trimmed .nil, by simp⟩
    | @cons b' s' blocks ss hb' hrest =>
      obtain ⟨ws, heq, hws, hwsne⟩ := ih (by simp)
      have hlast : trimEnd (['\n'].intercalate (b' :: blocks)) ≠ [] := by
        rw [heq]
        cases hws with
        | cons hw hothers =>
          obtain ⟨more, hfirst, -, -⟩ := exists_nextLine hothers _
          obtain ⟨a, rest, ha, -⟩ := hw.begins
          rw [hfirst, ha]
          exact List.cons_ne_nil _ _
      refine ⟨b :: ws, ?_, .cons hb.whole hws, by simp⟩
      rw [List.intercalate_cons_cons, Text.trimEnd_append_of_ne_nil _ hlast, heq]
      cases ws with
      | nil => exact absurd rfl hwsne
      | cons w ws => rw [List.intercalate_cons_cons]

/-- A file of blocks has their sections. -/
theorem sections_of_blocks (h : List.Forall₂ BlockOf blocks ss) (hne : blocks ≠ []) :
    ∃ ys, sections (Text.trim (['\n'].intercalate blocks)) = .ok ys ∧
      List.Forall₂ (fun s y ↦ SameSection s y.value) ss ys := by
  have hbegins : BeginsSmall (['\n'].intercalate blocks) := by
    cases h with
    | nil => exact absurd rfl hne
    | @cons b _ _ _ hb hblocks =>
      obtain ⟨more, hfirst, -, -⟩ := exists_nextLine (hblocks.imp fun _ _ h ↦ h.whole) b
      exact hfirst ▸ hb.whole.begins.append more
  obtain ⟨ws, heq, hws, hwsne⟩ := trimEnd_intercalate h hne
  rw [hbegins.trim_eq, heq]
  exact sections_intercalate hws hwsne

/-! ### Drafts -/

/-- Relations between the members of lists are put together member by member. -/
theorem forall₂_comp {α β γ : Type} {R : α → β → Prop} {S : β → γ → Prop} {T : α → γ → Prop}
    (h : ∀ a b c, R a b → S b c → T a c) {as : List α} {bs : List β} {cs : List γ}
    (hab : List.Forall₂ R as bs) (hbc : List.Forall₂ S bs cs) : List.Forall₂ T as cs := by
  induction hab generalizing cs with
  | nil =>
    cases hbc
    exact .nil
  | cons hr _ ih =>
    cases hbc with
    | cons hs hbc => exact .cons (h _ _ _ hr hs) (ih hbc)

namespace Draft

/-- The sections of a draft have statements, of different kinds and new to the draft. -/
theorem exists_statements_of_foldlM_add {secs : List (Located Section)} {d d' : Draft}
    (h : secs.foldlM add d = .ok d') :
    ∃ sts, List.Forall₂ (fun x st ↦ x.value.statement = .ok st) secs sts ∧
      (sts.map Statement.kind).Nodup ∧ ∀ st ∈ sts, d.content st.kind = none := by
  induction secs generalizing d with
  | nil => exact ⟨[], .nil, .nil, by simp⟩
  | cons x secs ih =>
    rw [List.foldlM_cons] at h
    obtain ⟨d₁, hadd, h⟩ := exists_of_bind_eq_ok h
    obtain ⟨st, hst, hgains⟩ := gains_of_add hadd
    obtain ⟨sts, hsts, hnodup, hnone⟩ := ih h
    have hnew : d.content st.kind = none := by
      rw [add] at hadd
      split at hadd
      · cases hadd
      · next hhas =>
        rwa [has_eq_isSome_content, Option.not_isSome_iff_eq_none, ← kind_of_statement hst] at hhas
    have hother : ∀ st' ∈ sts, st'.kind ≠ st.kind ∧ d.content st'.kind = none := by
      intro st' hmem
      have hgained := hnone st' hmem
      rw [hgains] at hgained
      split at hgained
      · cases hgained
      · next hne => exact ⟨hne, hgained⟩
    refine ⟨st :: sts, .cons hst hsts, List.nodup_cons.mpr ⟨?_, hnodup⟩,
      List.forall_mem_cons.mpr ⟨hnew, fun st' hmem ↦ (hother st' hmem).2⟩⟩
    rintro hmem
    obtain ⟨st', hmem, heq⟩ := List.mem_map.mp hmem
    exact (hother st' hmem).1 heq

/-- Sections that say the same in another order make a draft that holds the same. -/
theorem exists_ofSections_of_perm {secs secs' : List (Located Section)} {sts sts' : List Statement}
    {d : Draft} (hd : ofSections secs = .ok d)
    (h : List.Forall₂ (fun x st ↦ x.value.statement = .ok st) secs sts)
    (hnodup : (sts.map Statement.kind).Nodup)
    (h' : List.Forall₂ (fun x st ↦ x.value.statement = .ok st) secs' sts')
    (hperm : sts'.Perm sts) : ∃ d', ofSections secs' = .ok d' ∧ d'.content = d.content := by
  have hmap : ∀ {xs : List (Located Section)} {ts : List Statement},
      List.Forall₂ (fun x st ↦ x.value.statement = .ok st) xs ts →
        xs.map (fun x ↦ x.value.statement) = ts.map .ok := by
    intro xs ts hxs
    rwa [← List.forall₂_eq_eq_eq, List.forall₂_map_left_iff, List.forall₂_map_right_iff]
  have hempty : ∀ k, empty.content k = none := fun k ↦ by cases k <;> rfl
  have hnodup' : (sts'.map Statement.kind).Nodup :=
    (hperm.map Statement.kind).nodup_iff.mpr hnodup
  obtain ⟨d₁, hd₁, hheld, hother⟩ := foldlM_add_eq_ok (hmap h) hnodup fun _ _ ↦ hempty _
  obtain ⟨d', hd', hheld', hother'⟩ := foldlM_add_eq_ok (hmap h') hnodup' fun _ _ ↦ hempty _
  obtain rfl : d₁ = d := Except.ok.inj (hd₁.symm.trans hd)
  refine ⟨d', hd', funext fun k ↦ ?_⟩
  by_cases hk : k ∈ sts.map Statement.kind
  · obtain ⟨st, hmem, rfl⟩ := List.mem_map.mp hk
    rw [hheld st hmem, hheld' st (hperm.mem_iff.mpr hmem)]
  · have hk' : k ∉ sts'.map Statement.kind :=
      fun hmem ↦ hk ((hperm.map Statement.kind).mem_iff.mp hmem)
    rw [hother k hk, hother' k hk']

end Draft

/-! ### Files -/

/-- The order of the sections does not matter. A file of blocks, without other blanks than spaces,
tabs and line feeds, that is accepted is accepted with its blocks in any order, as the same program
and with the same warnings. -/
theorem parse_of_perm {r : Program × List Warning}
    (hblank : ∀ b ∈ blocks, ∀ c ∈ b, isBlank c = true → c = ' ' ∨ c = '\t' ∨ c = '\n')
    (hblocks : ∀ b ∈ blocks, IsBlock b)
    (hs : parse (String.ofList (['\n'].intercalate blocks)) = .ok r)
    (hperm : blocks'.Perm blocks) :
    parse (String.ofList (['\n'].intercalate blocks')) = .ok r := by
  obtain ⟨ss, hss⟩ := exists_blocksOf hblocks hblank
  obtain ⟨ss', hss', hpermss⟩ := List.perm_comp_forall₂ hperm hss
  by_cases hne : blocks = []
  · rw [hne] at hperm hs
    rwa [hperm.eq_nil]
  have hne' : blocks' ≠ [] := fun hnil ↦ hne (hnil ▸ hperm).symm.eq_nil
  obtain ⟨ys, hys, hsame⟩ := sections_of_blocks hss hne
  obtain ⟨ys', hys', hsame'⟩ := sections_of_blocks hss' hne'
  rw [parse_eq_ok_iff, String.toList_ofList] at hs ⊢
  obtain ⟨secs, hsecs, hr⟩ := hs
  obtain rfl : ys = secs := Except.ok.inj (hys.symm.trans hsecs)
  obtain ⟨p, warnings⟩ := r
  obtain ⟨d, again, findings, hd, hp, hc, hw⟩ := programOf_eq_ok_iff.mp hr
  obtain ⟨sts, hsts, hnodup, -⟩ := Draft.exists_statements_of_foldlM_add hd
  have hsays : List.Forall₂ (fun s st ↦ s.statement = .ok st) ss sts :=
    forall₂_comp (fun _ _ st h ↦ h.symm.saysAlike st) hsame hsts
  obtain ⟨sts', hsts', hpermsts⟩ := List.perm_comp_forall₂ hpermss hsays
  have hsays' : List.Forall₂ (fun x st ↦ x.value.statement = .ok st) ys' sts' :=
    forall₂_comp (fun _ _ st h ↦ h.saysAlike st) hsame'.flip hsts'
  obtain ⟨d', hd', hcontent⟩ :=
    Draft.exists_ofSections_of_perm hd hsts hnodup hsays' hpermsts
  have hp' := Draft.program_of_content_eq hcontent hp
  exact ⟨ys', hys', programOf_eq_ok_iff.mpr ⟨d', again, findings, hd', hp', hc, hw⟩⟩

/-- The three blocks of a file from first to last and the other way round; a comment and a blank
line belong to the first of them. -/
theorem parse_of_perm_slash :
    let blocks := ["name: a // b\n".toList, "states: 1".toList,
      "transitions:\n(0,/)->(0,/,Y)".toList]
    parse (String.ofList (['\n'].intercalate blocks)) = .ok (slash, []) ∧
      parse (String.ofList (['\n'].intercalate blocks.reverse)) = .ok (slash, []) := by
  intro blocks
  have hparse : parse (String.ofList (['\n'].intercalate blocks)) = .ok (slash, []) := by decide
  have hblank : ∀ b ∈ blocks, ∀ c ∈ b, isBlank c = true → c = ' ' ∨ c = '\t' ∨ c = '\n' := by
    have hall : (blocks.all fun b ↦ b.all fun c ↦
        !isBlank c || c = ' ' || c = '\t' || c = '\n') = true := by decide
    intro b hb c hc h
    simpa [h, or_assoc] using List.all_eq_true.mp (List.all_eq_true.mp hall b hb) c hc
  have hblocks : ∀ b ∈ blocks, IsBlock b := by
    have hname : IsBlock "name: a // b\n".toList :=
      ⟨⟨.name "a ".toList, ⟨0, 8⟩⟩, by decide, by decide⟩
    have hstates : IsBlock "states: 1".toList :=
      ⟨⟨.states ⟨"1".toList, ⟨8, 9⟩⟩, ⟨0, 9⟩⟩, by decide, by decide⟩
    have htransitions : IsBlock "transitions:\n(0,/)->(0,/,Y)".toList :=
      ⟨⟨.transitions [⟨⟨⟨"0".toList, ⟨14, 15⟩⟩, ⟨'/', ⟨16, 17⟩⟩, ⟨"0".toList, ⟨21, 22⟩⟩,
        ⟨'/', ⟨23, 24⟩⟩, ⟨'Y', ⟨25, 26⟩⟩⟩, ⟨13, 27⟩⟩], ⟨0, 27⟩⟩, by decide, by decide⟩
    exact List.forall_mem_cons.mpr ⟨hname, List.forall_mem_cons.mpr ⟨hstates,
      List.forall_mem_cons.mpr ⟨htransitions, fun _ h ↦ absurd h List.not_mem_nil⟩⟩⟩
  exact ⟨hparse, parse_of_perm hblank hblocks hparse (List.reverse_perm blocks)⟩

end TapeMachine.Definition
