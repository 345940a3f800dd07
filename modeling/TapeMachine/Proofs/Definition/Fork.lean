import TapeMachine.Proofs.Definition.SameParts

/-!
# Texts that fork at a line break

Two texts are the same up to a line break and go on differently behind it. Up to the fork the reader
makes the same of both. It passes the fork where it looks for the next line of a table or of the
inputs, or for the next section; from there on the first text says nothing about the second
(`tracks_onLine_forked`, `tracks_block_forked`).
-/

namespace TapeMachine.Definition

open Peg (Alongside Cursor Tracks InStep never tracks_of_avoids)

variable {α β : Type} {e : Grammar.Expr α} {f : Grammar.Expr β} {V : α → α → Prop}
  {W : β → β → Prop} {stop : Char} {x y s t : List Char}

/-- Up to a character the texts are the same, and behind it the one goes on with `x` and the other
with `y`. -/
def Forked (stop : Char) (x y s t : List Char) : Prop :=
  ∃ w, s = w ++ stop :: x ∧ t = w ++ stop :: y

/-! ### Texts -/

theorem alongside_forked : Alongside [stop] (Forked stop x y) where
  head := by
    rintro s t ⟨w, rfl, rfl⟩
    cases w <;> rfl
  tail := by
    rintro a s t ⟨w, hs, ht⟩ ha
    cases w with
    | nil => exact absurd (List.mem_singleton.mpr (List.cons.inj hs).1) ha
    | cons b w => exact ⟨w, (List.cons.inj hs).2, (List.cons.inj ht).2⟩

/-- The first text is longer than what it goes on with. -/
theorem Forked.not_suffix (h : Forked stop x y s t) : ¬s <:+ x := by
  obtain ⟨w, rfl, -⟩ := h
  intro hs
  have hlength := hs.length_le
  simp only [List.length_append, List.length_cons] at hlength
  omega

/-- The same layout is skipped, unless only layout stands before the fork. -/
theorem Forked.behind_layout (hstop : Grammar.isBreak stop = true) (h : Forked stop x y s t) :
    Forked stop x y (skipLayout s) (skipLayout t) ∨
      skipLayout s = skipLayout x ∧ skipLayout t = skipLayout y := by
  obtain ⟨w, rfl, rfl⟩ := h
  have hskip (z : List Char) := skip_append_of_endsLine
    (fun a (ha : (stop :: z).head? = some a) ↦ Option.some.inj ha ▸ hstop) false w
  rw [skipLayout, skipLayout, hskip x, hskip y]
  by_cases hw : skip isLayout false w = []
  · rw [if_pos hw, if_pos hw]
    exact .inr ⟨skipLayout_break hstop x, skipLayout_break hstop y⟩
  · rw [if_neg hw, if_neg hw]
    exact .inl ⟨_, rfl, rfl⟩

/-- Behind the layout the first text is past the fork. -/
def Past (x s : List Char) : Prop := skipLayout s <:+ x

theorem past_of_suffix (h : s <:+ x) : Past x s := (skip_suffix isLayout false s).trans h

/-- What an expression leaves is the end of what there was. -/
theorem suffix_of_outcome {a : α} {c next : Cursor} (h : e.outcome c = some (a, next)) :
    next.rest <:+ c.rest := by
  obtain ⟨w, hw, -⟩ := Peg.outcome_passes h
  exact ⟨w, hw.rest_eq.symm⟩

/-- Behind a gap it is the end of what the gap leaves. -/
theorem suffix_skipGap_of_outcome {a : α} {c next : Cursor}
    (h : (Grammar.gap.right e).outcome c = some (a, next)) : next.rest <:+ skipGap c.rest := by
  obtain ⟨mid, hgap, hmid⟩ := outcome_gap c
  rw [Peg.outcome_right_of_some hgap] at h
  exact hmid ▸ suffix_of_outcome h

/-! ### Words and lines -/

section

variable (hstop : Grammar.isBreak stop = true)

include hstop

/-- An expression without line breaks reads the same. -/
theorem tracks_forked (hf : e.founded = true) (hn : e.avoids '\n' = true)
    (hr : e.avoids '\r' = true) :
    e.Tracks never never (Forked stop x y) (Forked stop x y) e.Alike := by
  refine tracks_of_avoids alongside_forked hf fun a ha ↦ ?_
  rw [List.mem_singleton.mp ha]
  rcases isBreak_eq_true_iff.mp hstop with rfl | rfl
  · exact hn
  · exact hr

/-- The same gap is skipped. -/
theorem Forked.behind_gap (h : Forked stop x y s t) :
    Forked stop x y (skipGap s) (skipGap t) := by
  have hgap := tracks_forked hstop (e := Grammar.gap) (x := x) (y := y) rfl rfl rfl ⟨s, 0⟩ ⟨t, 0⟩ h
  obtain ⟨next, hs, hnext⟩ := outcome_gap ⟨s, 0⟩
  obtain ⟨next', ht, hnext'⟩ := outcome_gap ⟨t, 0⟩
  rw [hs] at hgap
  obtain ⟨u, last, hlast, -, hforked⟩ := hgap.exists_of_some
  obtain ⟨-, rfl⟩ := Prod.mk.inj (Option.some.inj (ht.symm.trans hlast))
  rwa [hnext, hnext'] at hforked

/-- A part on a line of its own is read alike, unless the next line is past the fork. -/
theorem tracks_onLine_forked (h : f.Tracks never never (Forked stop x y) (Forked stop x y) W) :
    (Grammar.pair Grammar.breaks f).Tracks (Past x) (· <:+ x) (Forked stop x y) (Forked stop x y)
      fun a b ↦ W a.2 b.2 := by
  intro c c' hc
  have hhead := alongside_forked.head hc
  by_cases hb : ∃ a, c.rest.head? = some a ∧ Grammar.isBreak a = true
  · obtain ⟨a, ha, hb⟩ := hb
    obtain ⟨d, hd, hout, -⟩ := outcome_onLine f ha hb
    obtain ⟨d', hd', hout', -⟩ := outcome_onLine f (hhead ▸ ha) hb
    rw [hout, hout']
    rcases hc.behind_layout hstop with hskip | ⟨hskip, -⟩
    · have hpart := h d d' (by rw [hd, hd']; exact hskip)
      generalize f.outcome d = o at hpart ⊢
      generalize f.outcome d' = o' at hpart ⊢
      cases hpart with
      | refused => exact .refused
      | lost h => exact h.elim
      | matched hv hnext => exact .matched hv hnext
      | stuck h => exact h.elim
    · have hpast : Past x c.rest := by
        rw [Past, hskip]
        exact skip_suffix isLayout false x
      cases ho : f.outcome d with
      | none => exact .lost hpast
      | some v => exact .stuck ((suffix_of_outcome ho).trans (hd ▸ hpast))
  · push Not at hb
    have hbreak : ∀ a, c.rest.head? = some a → Grammar.isBreak a = false :=
      fun a ha ↦ by simpa using hb a ha
    rw [outcome_onLine_of_not_isBreak f hbreak,
      outcome_onLine_of_not_isBreak f (hhead ▸ hbreak)]
    exact .refused

/-- A part behind a gap is read alike, unless it is past the fork. -/
theorem tracks_behindGap_forked
    (h : e.Tracks (Past x) (· <:+ x) (Forked stop x y) (Forked stop x y) V) :
    (Grammar.gap.right e).Tracks (Past x) (· <:+ x) (Forked stop x y) (Forked stop x y) V := by
  have hgap : Grammar.gap.Tracks (Past x) never (Forked stop x y) (Forked stop x y) _ :=
    (tracks_forked hstop rfl rfl rfl).of_never
  refine (hgap.seq_of h ?_ (fun _ ↦ id) fun _ ↦ False.elim).map fun _ _ h ↦ h.2
  intro c u next hc hpast
  obtain ⟨mid, hmid, hrest⟩ := outcome_gap c
  rw [hmid, Option.some.injEq, Prod.mk.injEq] at hc
  rwa [Past, ← hc.2, hrest, skipLayout_skipGap] at hpast

/-- A list is read alike, unless it ends before a line that is past the fork. -/
theorem tracks_list_forked (hr : e.reads = true)
    (h : e.Tracks (Past x) (· <:+ x) (Forked stop x y) (Forked stop x y) V) :
    (Grammar.list e).Tracks never (Past x) (Forked stop x y) (Forked stop x y)
      (List.Forall₂ V) := by
  have hmany : (Grammar.gap.right e).many.Tracks never (Past x) (Forked stop x y) (Forked stop x y)
      (List.Forall₂ V) :=
    (tracks_behindGap_forked hstop h).many_of (Peg.reads_right _ hr) (fun _ ↦ id)
      fun c as last hc hm ↦ past_of_suffix ((suffix_of_outcome hm).trans hc)
  have hseq := h.seq_of hmany (fun _ _ _ _ ↦ False.elim) (fun _ ↦ id) fun c hc ↦ by
    obtain ⟨as, last, hm⟩ := Peg.exists_outcome_many (Grammar.gap.right e) c
    exact ⟨as, last, hm, past_of_suffix ((suffix_of_outcome hm).trans hc)⟩
  refine (hseq.optional (fun _ _ ↦ id) (fun _ ↦ id) fun _ ↦ id).map ?_
  intro o o' ho
  cases ho with
  | none => exact .nil
  | some hx => exact .cons hx.1 hx.2

/-! ### Sections -/

/-- A rule on a line of its own. -/
theorem tracks_ruleLine_forked : ruleLine.Tracks (Past x) (· <:+ x) (Forked stop x y)
    (Forked stop x y) SameRule :=
  (tracks_onLine_forked hstop (tracks_forked hstop rfl rfl rfl)).map fun _ _ ↦ alike_transition

/-- A section is read alike, unless it ends before a line that is past the fork. -/
theorem tracks_anySection_forked : Grammar.anySection.Tracks never (Past x) (Forked stop x y)
    (Forked stop x y) fun a b ↦ SameSection a.value b.value := by
  have hword {γ : Type} {g : Grammar.Expr γ} {U : γ → γ → Prop} (hf : g.founded = true)
      (hn : g.avoids '\n' = true) (hr : g.avoids '\r' = true) (hu : ∀ a b, g.Alike a b → U a b) :
      g.Tracks never never (Forked stop x y) (Forked stop x y) U :=
    (tracks_forked hstop hf hn hr).mono (fun _ _ ↦ id) (fun _ _ ↦ id) hu
  have hlines {γ : Type} {g : Grammar.Expr γ} {U : γ → γ → Prop} (kw : String)
      (hn : (Peg.literal kw : Grammar.Expr Unit).avoids '\n' = true)
      (hr : (Peg.literal kw : Grammar.Expr Unit).avoids '\r' = true)
      (h : g.Tracks never (Past x) (Forked stop x y) (Forked stop x y) U) :
      (Grammar.after kw g).Tracks never (Past x) (Forked stop x y) (Forked stop x y) U :=
    (tracks_forked hstop rfl hn hr).right ((tracks_forked hstop rfl rfl rfl).right h)
  have hrun : ((Grammar.pair Grammar.breaks Grammar.run).map fun r ↦ r.2.value).Tracks (Past x)
      (· <:+ x) (Forked stop x y) (Forked stop x y) SameRun :=
    (tracks_onLine_forked hstop (tracks_forked hstop rfl rfl rfl)).map fun _ _ ↦ alike_run
  refine .choice (hword rfl rfl rfl fun _ _ h ↦ alike_anySection (.inl h)) <|
    .choice (hword rfl rfl rfl fun _ _ h ↦ alike_anySection (.inr (.inl h))) <|
    .choice (hword rfl rfl rfl fun _ _ h ↦ alike_anySection (.inr (.inr (.inl h)))) <|
    .choice (hword rfl rfl rfl fun _ _ h ↦ alike_anySection (.inr (.inr (.inr (.inl h))))) <|
    .choice (hword rfl rfl rfl
      fun _ _ h ↦ alike_anySection (.inr (.inr (.inr (.inr (.inl h)))))) <|
    .choice_of ?_ ?_
  · exact ((hlines "transitions:" rfl rfl (tracks_list_forked hstop rfl
      (tracks_ruleLine_forked hstop))).map fun _ _ ↦ .transitions).rule
  · exact ((hlines "runs:" rfl rfl (tracks_list_forked hstop rfl hrun)).map fun _ _ ↦ .runs).rule

/-- A section behind a gap, with the line breaks behind it, is read alike, unless what comes next is
past the fork. -/
theorem tracks_block_forked : (Grammar.gap.right sectionBlock).Tracks never
    (fun s ↦ skipGap s <:+ x) (Behind (Forked stop x y)) (Behind (Forked stop x y))
      fun a b ↦ SameSection a.value b.value := by
  have hbreaks : (Grammar.gap.right (Grammar.list Grammar.lineBreak)).Tracks never
      (fun s ↦ skipGap s <:+ x) (Forked stop x y) (Behind (Forked stop x y)) fun _ _ ↦ True := by
    intro c c' hc
    obtain ⟨us, next, hbreaks, hnext⟩ := outcome_gap_lineBreaks c
    obtain ⟨us', next', hbreaks', hnext'⟩ := outcome_gap_lineBreaks c'
    rw [hbreaks, hbreaks']
    rcases hc.behind_layout hstop with hskip | ⟨hskip, -⟩
    · refine .matched trivial ?_
      rw [Behind, hnext, hnext']
      exact hskip
    · refine .stuck ?_
      rw [hnext, hskip]
      exact skip_suffix isLayout false x
  refine tracks_gap_right (((tracks_anySection_forked hstop).seq_of hbreaks
    (fun _ _ _ _ ↦ False.elim) (fun _ ↦ id) ?_).map fun _ _ h ↦ h.1)
  intro c hc
  obtain ⟨us, next, hbreaks, hnext⟩ := outcome_gap_lineBreaks c
  exact ⟨us, next, hbreaks, hnext ▸ hc⟩

end

end TapeMachine.Definition
