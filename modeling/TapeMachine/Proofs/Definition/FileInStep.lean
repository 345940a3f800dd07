import TapeMachine.Proofs.Definition.InStep
import TapeMachine.Proofs.Definition.Places

/-!
# Files in step

The sections of texts that differ in their layout say the same. An unclosed tape on a line of its
own is the one thing at which a text may go on where the first has stopped; a file that is read to
its end holds none.
-/

namespace TapeMachine.Definition

open Peg (Cursor Takes Refuses Tracks InStep never)

/-! ### Readings -/

section Readings

variable {α β γ δ ε : Type}

/-- Lists whose members are accepted alike are accepted alike. -/
theorem exists_mapM_eq_ok_of_forall₂ {f : α → Except ε β} {g : β → γ} {as bs : List α} {vs : List β}
    (h : List.Forall₂ (fun a b ↦ ∀ v, f a = .ok v → ∃ v', f b = .ok v' ∧ g v' = g v) as bs)
    (hm : as.mapM f = .ok vs) : ∃ vs', bs.mapM f = .ok vs' ∧ vs'.map g = vs.map g := by
  induction h generalizing vs with
  | nil => exact ⟨vs, hm, rfl⟩
  | cons hab _ ih =>
    rw [List.mapM_cons] at hm
    obtain ⟨v, hv, hm⟩ := exists_of_bind_eq_ok hm
    obtain ⟨ws, hws, hm⟩ := exists_of_bind_eq_ok hm
    obtain rfl := Except.ok.inj hm
    obtain ⟨v', hv', hg⟩ := hab v hv
    obtain ⟨ws', hws', hgs⟩ := ih hws
    refine ⟨v' :: ws', ?_, by rw [List.map_cons, List.map_cons, hg, hgs]⟩
    rw [List.mapM_cons, hv', hws']
    rfl

/-- Loops whose rounds go alike go alike. -/
theorem exists_foldlM_eq_ok_of_forall₂ {f : β → α → Except ε β} {g : γ → δ → Except ε γ}
    {V : α → δ → Prop} {R : β → γ → Prop}
    (hround : ∀ s t a b s', V a b → R s t → f s a = .ok s' → ∃ t', g t b = .ok t' ∧ R s' t')
    {as : List α} {bs : List δ} {s s' : β} {t : γ} (h : List.Forall₂ V as bs) (hst : R s t)
    (hs : as.foldlM f s = .ok s') : ∃ t', bs.foldlM g t = .ok t' ∧ R s' t' := by
  induction h generalizing s t with
  | nil =>
    obtain rfl := Except.ok.inj hs
    exact ⟨t, rfl, hst⟩
  | cons hab _ ih =>
    rw [List.foldlM_cons] at hs
    obtain ⟨s₁, hs₁, hs⟩ := exists_of_bind_eq_ok hs
    obtain ⟨t₁, ht₁, hst⟩ := hround _ _ _ _ s₁ hab hst hs₁
    obtain ⟨t', ht, hst⟩ := ih hst hs
    refine ⟨t', ?_, hst⟩
    rw [List.foldlM_cons, ht₁]
    exact ht

end Readings

theorem readCount_of_sameValue {a b : Located Digits} (h : SameValue a b) {n : Nat}
    (ha : readCount a = .ok n) : readCount b = .ok n := by
  unfold readCount at ha ⊢
  rw [← h]
  split at ha
  · exact ha
  · cases ha

theorem readState_of_sameValue {a b : Located Digits} (h : SameValue a b) {q : State}
    (ha : readState a = .ok q) : readState b = .ok q := by
  obtain ⟨n, hn, rfl⟩ := exists_of_map_eq_ok ha
  rw [readState, readCount_of_sameValue h hn]
  rfl

theorem readSymbol_of_sameValue {a b : Located Char} (h : SameValue a b) {s : Symbol}
    (ha : readSymbol a = .ok s) : readSymbol b = .ok s := by
  rw [readSymbol, ← h, eq_ok_of_mapError_eq_ok ha]
  rfl

theorem readAction_of_sameValue {a b : Located Char} (h : SameValue a b) {x : Action}
    (ha : readAction a = .ok x) : readAction b = .ok x := by
  rw [readAction, ← h, eq_ok_of_mapError_eq_ok ha]
  rfl

theorem readTape_of_sameValue {a b : Located (List Char)} (h : SameValue a b) {t : Tape}
    (ha : readTape a = .ok t) : readTape b = .ok t := by
  rw [readTape, ← h, eq_ok_of_mapError_eq_ok ha]
  rfl

theorem readPosition_of_sameValue {a b : Located PositionText} (h : SameValue a b) {n : Int}
    (ha : readPosition a = .ok n) : readPosition b = .ok n := by
  unfold readPosition at ha ⊢
  rw [← h]
  dsimp only at ha ⊢
  split at ha
  · cases ha
  · next hmin =>
    split at ha
    · cases ha
    · next hmax => rw [if_neg hmin, if_neg hmax, ha]

/-- The rules have the same parts, wherever these stand. -/
structure SameRule (a b : Located RuleText) : Prop where
  state : SameValue a.value.state b.value.state
  symbol : SameValue a.value.symbol b.value.symbol
  next : SameValue a.value.next b.value.next
  write : SameValue a.value.write b.value.write
  action : SameValue a.value.action b.value.action

/-- The inputs have the same parts, wherever these stand. -/
structure SameRun (a b : RunText) : Prop where
  tape : SameValue a.tape b.tape
  position : SameValue a.position b.position

theorem SameRule.symm {a b : Located RuleText} (h : SameRule a b) : SameRule b a :=
  ⟨Eq.symm h.state, Eq.symm h.symbol, Eq.symm h.next, Eq.symm h.write, Eq.symm h.action⟩

theorem SameRun.symm {a b : RunText} (h : SameRun a b) : SameRun b a :=
  ⟨Eq.symm h.tape, Eq.symm h.position⟩

theorem readRule_of_sameRule {a b : Located RuleText} (h : SameRule a b) {r : Located Rule}
    (ha : readRule a = .ok r) : ∃ r', readRule b = .ok r' ∧ r'.value = r.value := by
  obtain ⟨state, hstate, ha⟩ := exists_of_bind_eq_ok ha
  obtain ⟨symbol, hsymbol, ha⟩ := exists_of_bind_eq_ok ha
  obtain ⟨next, hnext, ha⟩ := exists_of_bind_eq_ok ha
  obtain ⟨write, hwrite, ha⟩ := exists_of_bind_eq_ok ha
  obtain ⟨action, haction, ha⟩ := exists_of_bind_eq_ok ha
  obtain rfl := Except.ok.inj ha
  refine ⟨⟨⟨⟨state, symbol⟩, ⟨next, write, action⟩⟩, b.span⟩, ?_, rfl⟩
  rw [readRule, readState_of_sameValue h.state hstate, ok_bind,
    readSymbol_of_sameValue h.symbol hsymbol, ok_bind, readState_of_sameValue h.next hnext, ok_bind,
    readSymbol_of_sameValue h.write hwrite, ok_bind, readAction_of_sameValue h.action haction,
    ok_bind]
  rfl

theorem readRun_of_sameRun {a b : RunText} (h : SameRun a b) {r : Run} (ha : readRun a = .ok r) :
    readRun b = .ok r := by
  obtain ⟨tape, htape, ha⟩ := exists_of_bind_eq_ok ha
  obtain ⟨head, hhead, ha⟩ := exists_of_bind_eq_ok ha
  rw [readRun, readTape_of_sameValue h.tape htape, ok_bind,
    readPosition_of_sameValue h.position hhead, ok_bind]
  exact ha

/-- What the first section says, the second says as well. -/
def SaysAlike (a b : Section) : Prop := ∀ st, a.statement = .ok st → b.statement = .ok st

/-! ### Sections -/

theorem tracks_transition :
    Grammar.transition.Tracks never never InLine (Behind InLine) SameRule := by
  refine ((tracks_after (by decide) <| tracks_pair (tracks_inLine tracks_state) <|
    tracks_after (by decide) <| tracks_pair (tracks_inLine tracks_symbol) <|
    tracks_after (by decide) <| tracks_after (by decide) <| tracks_after (by decide) <|
    tracks_pair (tracks_inLine tracks_state) <| tracks_after (by decide) <|
    tracks_pair (tracks_inLine tracks_symbol) <| tracks_after (by decide) <|
    tracks_before (by decide) tracks_action).map
      (W := fun a b ↦ ∀ sp sp', SameRule ⟨a, sp⟩ ⟨b, sp'⟩) ?_).rule.mono
        (fun _ _ ↦ id) (fun _ _ ↦ id) fun a b h ↦ h a.span b.span
  rintro _ _ ⟨hstate, hsymbol, hnext, hwrite, haction⟩ sp sp'
  exact ⟨hstate, hsymbol, hnext, hwrite, haction⟩

/-- An input is read alike, if its tape is closed on its line. -/
theorem tracks_run : Grammar.run.Tracks BeginsTape never InLine (Behind InLine)
    fun a b ↦ SameRun a.value b.value := by
  refine ((tracks_pair (tracks_inLine tracks_tape) <| tracks_after (by decide) <|
    tracks_inLine tracks_position).map ?_).rule
  rintro _ _ ⟨htape, hposition⟩
  exact ⟨htape, hposition⟩

/-- Behind the layout a tape begins. -/
def TapeAhead (s : List Char) : Prop := BeginsTape (skipLayout s)

theorem tapeAhead_skipGap {s : List Char} (h : TapeAhead (skipGap s)) : TapeAhead s := by
  rwa [TapeAhead, skipLayout_skipGap] at h

theorem tracks_rules : (Grammar.list ((Grammar.pair Grammar.breaks Grammar.transition).map
    Prod.snd)).Tracks never never InLine (Behind InLine) (List.Forall₂ SameRule) := by
  have hrule : Grammar.transition.Tracks never never AtStart (Behind InLine) SameRule :=
    tracks_transition.mono (fun _ _ ↦ AtStart.inLine) (fun _ _ ↦ id) fun _ _ ↦ id
  exact tracks_list_inLine rfl ((tracks_onLine rfl hrule).map fun _ _ h ↦ h)

/-- The inputs are read alike, unless there is one that is not closed on its line, where they
end. -/
theorem tracks_runs : (Grammar.list ((Grammar.pair Grammar.breaks Grammar.run).map
    fun r ↦ r.2.value)).Tracks never TapeAhead InLine (Behind InLine) (List.Forall₂ SameRun) := by
  have hrun : Grammar.run.Tracks BeginsTape never AtStart (Behind InLine)
      fun a b ↦ SameRun a.value b.value :=
    tracks_run.mono (fun _ _ ↦ AtStart.inLine) (fun _ _ ↦ id) fun _ _ ↦ id
  exact tracks_list (fun _ _ h ↦ ⟨h.left, h.right⟩) rfl ((tracks_onLine rfl hrun).map fun _ _ h ↦ h)
    (fun _ ↦ tapeAhead_skipGap) (fun _ ↦ id) fun _ ↦ False.elim

theorem saysAlike_name {a b : List Char} (h : Text.trim a = Text.trim b) :
    SaysAlike (.name a) (.name b) := by
  intro st hst
  rwa [Section.statement, ← h]

theorem saysAlike_states {a b : Located Digits} (h : SameValue a b) :
    SaysAlike (.states a) (.states b) := by
  intro st hst
  obtain ⟨n, hn, rfl⟩ := exists_of_map_eq_ok hst
  rw [Section.statement, readCount_of_sameValue h hn]
  rfl

theorem saysAlike_start {a b : Located Digits} (h : SameValue a b) :
    SaysAlike (.start a) (.start b) := by
  intro st hst
  obtain ⟨q, hq, rfl⟩ := exists_of_map_eq_ok hst
  rw [Section.statement, readState_of_sameValue h hq]
  rfl

theorem saysAlike_alphabet {as bs : List (Located Char)} (h : List.Forall₂ SameValue as bs) :
    SaysAlike (.alphabet as) (.alphabet bs) := by
  intro st hst
  obtain ⟨ss, hss, rfl⟩ := exists_of_map_eq_ok hst
  obtain ⟨ss', hss', heq⟩ := exists_mapM_eq_ok_of_forall₂ (g := id)
    (h.imp fun a b hab s hs ↦ ⟨s, readSymbol_of_sameValue hab hs, rfl⟩) hss
  rw [List.map_id, List.map_id] at heq
  rw [Section.statement, hss', heq]
  rfl

theorem saysAlike_transitions {as bs : List (Located RuleText)} (h : List.Forall₂ SameRule as bs) :
    SaysAlike (.transitions as) (.transitions bs) := by
  intro st hst
  obtain ⟨rs, hrs, rfl⟩ := exists_of_map_eq_ok hst
  obtain ⟨rs', hrs', heq⟩ := exists_mapM_eq_ok_of_forall₂ (g := Located.value)
    (h.imp fun a b hab r hr ↦ readRule_of_sameRule hab hr) hrs
  rw [Section.statement, hrs', ← heq]
  rfl

theorem saysAlike_runs {as bs : List RunText} (h : List.Forall₂ SameRun as bs) :
    SaysAlike (.runs as) (.runs bs) := by
  intro st hst
  obtain ⟨rs, hrs, rfl⟩ := exists_of_map_eq_ok hst
  obtain ⟨rs', hrs', heq⟩ := exists_mapM_eq_ok_of_forall₂ (g := id)
    (h.imp fun a b hab r hr ↦ ⟨r, readRun_of_sameRun hab hr, rfl⟩) hrs
  rw [List.map_id, List.map_id] at heq
  rw [Section.statement, hrs', heq]
  rfl

/-- The sections are of one kind and have the same parts, wherever these stand; blanks around a name
do not count. -/
inductive SameSection : Section → Section → Prop
  | name {a b : List Char} (h : Text.trim a = Text.trim b) : SameSection (.name a) (.name b)
  | mode (m : Mode) : SameSection (.mode m) (.mode m)
  | states {a b : Located Digits} (h : SameValue a b) : SameSection (.states a) (.states b)
  | start {a b : Located Digits} (h : SameValue a b) : SameSection (.start a) (.start b)
  | alphabet {as bs : List (Located Char)} (h : List.Forall₂ SameValue as bs) :
      SameSection (.alphabet as) (.alphabet bs)
  | transitions {as bs : List (Located RuleText)} (h : List.Forall₂ SameRule as bs) :
      SameSection (.transitions as) (.transitions bs)
  | runs {as bs : List RunText} (h : List.Forall₂ SameRun as bs) : SameSection (.runs as) (.runs bs)

theorem SameSection.symm {a b : Section} (h : SameSection a b) : SameSection b a := by
  cases h with
  | name h => exact .name h.symm
  | mode m => exact .mode m
  | states h => exact .states (Eq.symm h)
  | start h => exact .start (Eq.symm h)
  | alphabet h => exact .alphabet (h.flip.imp fun _ _ ↦ Eq.symm)
  | transitions h => exact .transitions (h.flip.imp fun _ _ ↦ SameRule.symm)
  | runs h => exact .runs (h.flip.imp fun _ _ ↦ SameRun.symm)

/-- Sections with the same parts say the same. -/
theorem SameSection.saysAlike {a b : Section} (h : SameSection a b) : SaysAlike a b := by
  cases h with
  | name h => exact saysAlike_name h
  | mode m => exact fun _ ↦ id
  | states h => exact saysAlike_states h
  | start h => exact saysAlike_start h
  | alphabet h => exact saysAlike_alphabet h
  | transitions h => exact saysAlike_transitions h
  | runs h => exact saysAlike_runs h

/-- A section is read alike, unless it ends before an input that is not closed on its line. -/
theorem tracks_anySection : Grammar.anySection.Tracks never TapeAhead InLine (Behind InLine)
    fun a b ↦ SameSection a.value b.value := by
  refine .choice ((tracks_after (by decide) tracks_text).map fun _ _ ↦ .name).rule <|
    .choice ((tracks_after (by decide) (tracks_inLine tracks_modeValue)).map ?mode).rule <|
    .choice ((tracks_after (by decide) (tracks_inLine tracks_count)).map
      fun _ _ ↦ .states).rule <|
    .choice ((tracks_after (by decide) (tracks_inLine tracks_state)).map
      fun _ _ ↦ .start).rule <|
    .choice ((tracks_after (by decide) (tracks_pair (tracks_inLine tracks_symbol)
      (tracks_list_inLine rfl (tracks_after (by decide) (tracks_inLine tracks_symbol))))).map
        fun _ _ h ↦ .alphabet (.cons h.1 h.2)).rule <|
    .choice ((tracks_after (by decide) tracks_rules).map fun _ _ ↦ .transitions).rule
      ((tracks_after (by decide) tracks_runs).map fun _ _ ↦ .runs).rule
  case mode =>
    intro m m' h
    have h : m.value = m'.value := h
    rw [h]
    exact .mode m'.value

/-! ### Files -/

/-- Behind the gap a tape begins. -/
def TapeHere (s : List Char) : Prop := BeginsTape (skipGap s)

/-- No section begins with a quote. -/
theorem refuses_anySection_of_beginsTape {s : List Char} (h : BeginsTape s) :
    Grammar.anySection.Refuses s := by
  have hkeyword : ∀ {α : Type} (n : RuleName) (text : String) (part : Grammar.Expr α)
      (g : α → Section), text.toList.head?.isSome ∧ text.toList.head? ≠ some '"' →
        (Peg.rule n ((Grammar.after text part).map g)).Refuses s := by
    rintro α n text part g ⟨hsome, hne⟩
    obtain ⟨rest, rfl⟩ := h
    refine ((Refuses.literal ?_).right _).map.rule
    rintro ⟨u, hu⟩
    obtain ⟨a, ha⟩ := Option.isSome_iff_exists.mp hsome
    obtain ⟨as, has⟩ := List.head?_eq_some_iff.mp ha
    rw [has] at hu
    rw [ha, (List.cons.inj hu).1] at hne
    exact hne rfl
  exact (hkeyword .name "name:" _ _ (by decide)).choice <|
    (hkeyword .mode "mode:" _ _ (by decide)).choice <|
    (hkeyword .states "states:" _ _ (by decide)).choice <|
    (hkeyword .start "start:" _ _ (by decide)).choice <|
    (hkeyword .alphabet "alphabet:" _ _ (by decide)).choice <|
    (hkeyword .transitions "transitions:" _ _ (by decide)).choice
      (hkeyword .runs "runs:" _ _ (by decide))

/-- A section and the line breaks behind it are read alike, unless they end before an input that is
not closed on its line. -/
theorem tracks_sectionBlock : sectionBlock.Tracks never TapeHere AtStart (Behind AtStart)
    fun a b ↦ SaysAlike a.value b.value := by
  have hsection : Grammar.anySection.Tracks never TapeAhead AtStart (Behind InLine)
      fun a b ↦ SaysAlike a.value b.value :=
    tracks_anySection.mono (fun _ _ ↦ AtStart.inLine) (fun _ _ ↦ id) fun _ _ ↦
      SameSection.saysAlike
  have hbreaks : (Grammar.list Grammar.lineBreak).Tracks never never InLine (Behind AtStart)
      fun _ _ ↦ True :=
    tracks_list_lineBreak.mono (fun _ _ ↦ InLine.aheadAtStart) (fun _ _ ↦ id) fun _ _ ↦ id
  refine (hsection.seq_of (tracks_gap_right hbreaks) (fun _ _ _ _ ↦ False.elim)
    (fun _ ↦ False.elim) ?_).map fun _ _ h ↦ h.1
  intro c hc
  obtain ⟨us, next, hbehind, hnext⟩ := outcome_gap_lineBreaks c
  refine ⟨us, next, hbehind, ?_⟩
  rw [TapeHere, hnext]
  exact hc

/-- The sections are read alike, unless they end before an input that is not closed on its line. -/
theorem tracks_sections : (Grammar.list sectionBlock).Tracks never TapeHere AtStart
    (Behind AtStart) (List.Forall₂ fun a b ↦ SaysAlike a.value b.value) := by
  refine tracks_list (fun s t h ↦ ⟨h.inLine.left, h.inLine.right⟩) rfl tracks_sectionBlock
    (fun _ ↦ id) (fun _ ↦ False.elim) fun c hc ↦ ⟨hc, ?_⟩
  obtain ⟨d, hgap, hd⟩ := outcome_gap c
  rw [Peg.outcome_right_of_some hgap]
  exact ((refuses_anySection_of_beginsTape (hd ▸ hc)).seq _).map d.pos

theorem AtStart.nil_iff {s t : List Char} (h : AtStart s t) : s = [] ↔ t = [] := by
  cases h.respaced with
  | @stop t hhead hall =>
    have ht : t = [] := (skip_of_settled h.right).symm.trans hall
    exact ⟨fun _ ↦ ht, fun _ ↦ rfl⟩
  | char => simp
  | line =>
    have hsettled := (h.left '\n' _ rfl).1
    cases hsettled

/-- The sections of a text that is read to its end say the same in a text with other layout. -/
theorem tracks_body : body.Tracks (fun _ ↦ True) never AtStart (fun _ _ ↦ True)
    fun x y ↦ List.Forall₂ (fun a b ↦ SaysAlike a.value b.value) x.1 y.1 := by
  intro c c' hc
  cases h : body.outcome c with
  | none => exact .lost trivial
  | some x =>
  obtain ⟨mid, hsections, hends⟩ := Peg.outcome_seq_eq_some_iff.mp h
  have hread := tracks_sections c c' hc
  rw [hsections] at hread
  generalize ho : (Grammar.list sectionBlock).outcome c' = o at hread
  cases hread with
  | @matched _ ys _ mid' hsays hmid =>
    have hend : (Grammar.gap.right (Peg.rule RuleName.endOfInput .ends)).Tracks never never
        (Behind AtStart) AtStart fun _ _ ↦ True :=
      tracks_gap_right ((Tracks.ends fun _ _ ↦ AtStart.nil_iff).rule.mono (fun _ _ ↦ id)
        (fun _ _ ↦ id) fun _ _ _ ↦ trivial)
    have hstop := hend mid mid' hmid
    rw [hends] at hstop
    obtain ⟨u, last', hlast, -, -⟩ := hstop.exists_of_some
    have hbody : body.outcome c' = some ((ys, u), last') :=
      Peg.outcome_seq_eq_some_iff.mpr ⟨mid', ho, hlast⟩
    rw [hbody]
    exact .matched hsays trivial
  | stuck htape =>
    -- A text does not end where a tape begins.
    obtain ⟨d, hgap, hd⟩ := outcome_gap mid
    rw [Peg.outcome_right_of_some hgap] at hends
    obtain ⟨rest, hrest⟩ := htape
    have hnone : (Peg.rule RuleName.endOfInput .ends : Grammar.Expr (Located Unit)).outcome d =
        none := by
      rw [Peg.outcome, Peg.outcome, if_neg (by rw [hd, hrest]; exact List.cons_ne_nil _ _)]
      rfl
    cases hnone.symm.trans hends

/-- A file that is read to its end is read alike with other layout. -/
theorem tracks_file : Grammar.file.Tracks (fun _ ↦ True) never (Behind AheadAtStart)
    (fun _ _ ↦ True) (List.Forall₂ fun a b ↦ SaysAlike a.value b.value) := by
  have hbreaks : (Grammar.list Grammar.lineBreak).Tracks (fun _ ↦ True) never AheadAtStart
      (Behind AtStart) fun _ _ ↦ True := tracks_list_lineBreak.of_never
  have hgap : ∀ R, Grammar.gap.Tracks (fun _ ↦ True) never (Behind R) R fun _ _ ↦ True :=
    fun _ ↦ tracks_gap
  have hbody : (Grammar.gap.right body).Tracks (fun _ ↦ True) never (Behind AtStart)
      (fun _ _ ↦ True) fun x y ↦ List.Forall₂ (fun a b ↦ SaysAlike a.value b.value) x.1 y.1 :=
    ((hgap AtStart).seq_of tracks_body (fun _ _ _ _ _ ↦ trivial) (fun _ ↦ id)
      fun _ ↦ False.elim).map fun _ _ h ↦ h.2
  have hopened : (Grammar.gap.right (Grammar.pair (Grammar.list Grammar.lineBreak) body)).Tracks
      (fun _ ↦ True) never (Behind AheadAtStart) (fun _ _ ↦ True)
      fun x y ↦ List.Forall₂ (fun a b ↦ SaysAlike a.value b.value) x.2.1 y.2.1 :=
    ((hgap AheadAtStart).seq_of (hbreaks.seq_of hbody (fun _ _ _ _ _ ↦ trivial) (fun _ ↦ id)
      fun _ ↦ False.elim) (fun _ _ _ _ _ ↦ trivial) (fun _ ↦ id) fun _ ↦ False.elim).map
        fun _ _ h ↦ h.2.2
  exact hopened.rule.map fun _ _ h ↦ h

/-- The sections of a file say the same in a file with other layout. -/
theorem sections_of_atStart {s t : List Char} (h : AtStart (skipLayout s) (skipLayout t))
    {xs : List (Located Section)} (hs : sections s = .ok xs) :
    ∃ ys, sections t = .ok ys ∧ List.Forall₂ (fun a b ↦ SaysAlike a.value b.value) xs ys := by
  have hread := eq_ok_of_mapError_eq_ok hs
  rw [Peg.read_eq_ok_iff rfl] at hread
  obtain ⟨next, hread⟩ := hread
  have hahead : Behind AheadAtStart s t := by
    refine ⟨settled_skip isSpace false s, settled_skip isSpace false t, ?_⟩
    rwa [skipLayout_skipGap, skipLayout_skipGap]
  have hfile := tracks_file (Cursor.ofText s) (Cursor.ofText t) hahead
  rw [hread] at hfile
  obtain ⟨ys, next', ho, hsays, -⟩ := hfile.exists_of_some
  refine ⟨ys, ?_, hsays⟩
  rw [sections, (Peg.read_eq_ok_iff rfl).mpr ⟨next', ho⟩]
  rfl

/-! ### Programs -/

/-- A section that says the same is added to a draft that holds the same. -/
theorem exists_add_of_saysAlike {a b : Located Section} {d d' e : Draft}
    (h : SaysAlike a.value b.value) (hd : d'.content = d.content) (ha : d.add a = .ok e) :
    ∃ e', d'.add b = .ok e' ∧ e'.content = e.content := by
  obtain ⟨st, hst, hgains⟩ := Draft.gains_of_add ha
  have hnew : d'.content st.kind = none := by
    rw [Draft.add] at ha
    split at ha
    · cases ha
    · next hhas =>
      rwa [Draft.has_eq_isSome_content, Option.not_isSome_iff_eq_none,
        ← Draft.kind_of_statement hst, ← hd] at hhas
  obtain ⟨e', hadd, hgains'⟩ := Draft.add_eq_ok (h st hst) hnew
  exact ⟨e', hadd, funext fun k ↦ by rw [hgains k, hgains' k, hd]⟩

/-- Whether a rule is accepted does not depend on where it stands. -/
theorem defineRule_of_sameValue {mode : Mode} {sofar m : Machine × List Trigger}
    {a b : Located Rule} (h : SameValue a b) (ha : defineRule mode sofar a = .ok m) :
    defineRule mode sofar b = .ok m := by
  obtain ⟨machine, again⟩ := sofar
  unfold defineRule at ha ⊢
  rw [← h]
  dsimp only at ha ⊢
  cases hr : machine.table.replaced a.value with
  | none =>
    rw [hr] at ha
    exact ha
  | some t =>
    rw [hr] at ha
    cases mode with
    | normal => exact ha
    | strict => cases ha

theorem alphabetOf_of_map_value_eq {as bs : List (Located Rule)} (declared : Option (List Symbol))
    (h : as.map Located.value = bs.map Located.value) :
    alphabetOf declared bs = alphabetOf declared as := by
  cases declared with
  | some symbols => rfl
  | none =>
    have hwritten := List.flatMap_map Located.value
      fun r : Rule ↦ [r.trigger.symbol, r.transition.write]
    exact (hwritten bs).symm.trans ((congrArg _ h.symm).trans (hwritten as))

/-- Drafts that hold the same describe the same program. -/
theorem Draft.program_of_content_eq {d d' : Draft} (h : d'.content = d.content)
    {r : Program × List Trigger} (hd : d.program = .ok r) : d'.program = .ok r := by
  have hname : d'.name = d.name :=
    Option.map_injective (fun _ _ ↦ Statement.name.inj) (congrFun h .name)
  have hmode : d'.mode = d.mode :=
    Option.map_injective (fun _ _ ↦ Statement.mode.inj) (congrFun h .mode)
  have hstates : d'.states = d.states :=
    Option.map_injective (fun _ _ ↦ Statement.states.inj) (congrFun h .states)
  have hstart : d'.start = d.start :=
    Option.map_injective (fun _ _ ↦ Statement.start.inj) (congrFun h .start)
  have halphabet : d'.alphabet = d.alphabet :=
    Option.map_injective (fun _ _ ↦ Statement.alphabet.inj) (congrFun h .alphabet)
  have hruns : d'.runs = d.runs :=
    Option.map_injective (fun _ _ ↦ Statement.runs.inj) (congrFun h .runs)
  have hrules : d'.rules.map (fun rs ↦ Statement.transitions (rs.map Located.value)) =
      d.rules.map fun rs ↦ Statement.transitions (rs.map Located.value) := congrFun h .transitions
  obtain ⟨name, hn, hd⟩ := exists_of_bind_eq_ok hd
  obtain ⟨states, hs, hd⟩ := exists_of_bind_eq_ok hd
  obtain ⟨rules, hr, hd⟩ := exists_of_bind_eq_ok hd
  dsimp only at hd
  obtain ⟨x, hx, hlast⟩ := exists_of_bind_eq_ok hd
  cases hrs : d.rules with
  | none =>
    rw [hrs] at hr
    cases hr
  | some rs =>
    rw [hrs] at hr hrules
    obtain rfl := Except.ok.inj hr
    obtain ⟨rs', hrs', heq⟩ := Option.map_eq_some_iff.mp hrules
    have hvalues : rs.map Located.value = rs'.map Located.value :=
      (Statement.transitions.inj heq).symm
    have hsame : List.Forall₂ SameValue rs rs' := by
      rwa [← List.forall₂_eq_eq_eq, List.forall₂_map_left_iff,
        List.forall₂_map_right_iff] at hvalues
    obtain ⟨x', hx', rfl⟩ := exists_foldlM_eq_ok_of_forall₂ (R := (· = ·))
      (fun s t a b s' hab hst ha ↦ ⟨s', hst ▸ defineRule_of_sameValue hab ha, rfl⟩) hsame rfl hx
    rw [Draft.program, hname, hn, ok_bind, hstates, hs, ok_bind, hrs', required, ok_bind, hmode,
      hstart, halphabet, hruns, alphabetOf_of_map_value_eq _ hvalues]
    dsimp only
    rw [hx', ok_bind]
    exact hlast

/-- Sections that say what others say are the same program, with the same warnings. -/
theorem programOf_of_saysAlike {xs ys : List (Located Section)} {r : Program × List Warning}
    (h : List.Forall₂ (fun a b ↦ SaysAlike a.value b.value) xs ys) (hs : programOf xs = .ok r) :
    programOf ys = .ok r := by
  obtain ⟨p, warnings⟩ := r
  obtain ⟨d, again, findings, hd, hp, hc, hw⟩ := programOf_eq_ok_iff.mp hs
  have hround : ∀ (d d' : Draft) (a b : Located Section) (e : Draft),
      SaysAlike a.value b.value → d'.content = d.content → d.add a = .ok e →
        ∃ e', d'.add b = .ok e' ∧ e'.content = e.content :=
    fun _ _ _ _ _ ↦ exists_add_of_saysAlike
  obtain ⟨d', hd', hcontent⟩ := exists_foldlM_eq_ok_of_forall₂ hround h rfl hd
  have hp' := Draft.program_of_content_eq hcontent hp
  exact programOf_eq_ok_iff.mpr ⟨d', again, findings, hd', hp', hc, hw⟩

/-- Texts that differ in their layout are the same program, with the same warnings. -/
theorem parse_of_atStart {source source' : String} {r : Program × List Warning}
    (h : AtStart (skipLayout (Text.trim source.toList)) (skipLayout (Text.trim source'.toList)))
    (hs : parse source = .ok r) : parse source' = .ok r := by
  obtain ⟨xs, hxs, hr⟩ := parse_eq_ok_iff.mp hs
  obtain ⟨ys, hys, hsays⟩ := sections_of_atStart h hxs
  exact parse_eq_ok_iff.mpr ⟨ys, hys, programOf_of_saysAlike hsays hr⟩

end TapeMachine.Definition
