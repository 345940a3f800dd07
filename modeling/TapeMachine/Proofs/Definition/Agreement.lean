import TapeMachine.Proofs.Definition.Production
import TapeMachine.Proofs.Peg.Agreement

/-!
# Agreement of the reader with the grammar

Every expression of the reader agrees with its production, and the tokens of a derivation show the
value that is read. So what becomes of a file is what the grammar derives (`derives_program`).
-/

namespace TapeMachine.Definition.Production

open Agrees (literal)

variable {ctx : Context} {α β : Type}

/-- There is one token, and it shows the value. -/
def Shows (read : Token RuleName → Option α) (ts : List (Token RuleName)) (a : α) : Prop :=
  ∃ t, ts = [t] ∧ read t = some a

/-- The tokens show the values one after another. -/
def ShowsAll (read : Token RuleName → Option α) (ts : List (Token RuleName)) (as : List α) : Prop :=
  ts.mapM read = some as

/-- There are no tokens, whatever the value. -/
def NoTokens (ts : List (Token RuleName)) (_ : α) : Prop := ts = []

private theorem showsAll_of_each {read : Token RuleName → Option α} {w : List Char}
    {ts : List (Token RuleName)} {as : List α} (h : Each (fun _ ↦ Shows read) w ts as) :
    ShowsAll read ts as := by
  induction h with
  | nil => rfl
  | cons hr _ ih =>
    obtain ⟨t, rfl, ht⟩ := hr
    rw [ShowsAll] at ih ⊢
    simp [ht, ih]

private theorem noTokens_of_each {w : List Char} {ts : List (Token RuleName)} {as : List α}
    (h : Each (fun _ ↦ NoTokens) w ts as) : ts = [] := by
  induction h with
  | nil => rfl
  | cons hr _ ih => rw [hr, ih, List.nil_append]

/-! ### Layout -/

/-- A text agrees with itself and leaves no token. -/
theorem agrees_text_noTokens (s : String) :
    Agrees layout ctx (.text s) (.literal s : Grammar.Expr Unit) fun _ ↦ NoTokens :=
  (literal s).mono fun _ _ _ h ↦ h.2

/-- A line break agrees with its production. -/
theorem agrees_newline : Agrees layout ctx newline Grammar.lineBreak fun _ ↦ NoTokens :=
  (agrees_text_noTokens "\n").choice <|
    (agrees_text_noTokens "\r\n").choice (agrees_text_noTokens "\r")

private theorem isSome_lineBreak (a : Char) (rest : List Char) (pos : Nat) :
    (Grammar.lineBreak.outcome ⟨a :: rest, pos⟩).isSome = Grammar.isBreak a := by
  simp only [Grammar.lineBreak, Peg.isSome_outcome_choice, Peg.isSome_outcome_literal]
  by_cases hn : a = '\n'
  · simp [Grammar.isBreak, hn]
  · by_cases hr : a = '\r'
    · simp [Grammar.isBreak, hr]
    · simp [Grammar.isBreak, List.isPrefixOf, hn, hr, Ne.symm hn, Ne.symm hr]

/-- The characters of a comment agree with their production. -/
theorem agrees_inLine : Agrees layout .mute (newline.without.seq .any)
    (.satisfying fun c ↦ !Grammar.isBreak c : Grammar.Expr Char) IsChar :=
  .charBut packed_mute agrees_newline <|
    Peg.outcome_satisfying_eq fun a rest pos ↦ by simp [isSome_lineBreak]

/-- A comment agrees with its production. -/
theorem agrees_comment : Agrees layout .mute comment Grammar.comment fun _ _ _ ↦ True :=
  ((literal "//").seq packed_mute (agrees_inLine.chars packed_mute rfl)).map fun _ _ _ _ ↦ trivial

/-- A blank agrees with its production. -/
theorem agrees_blank : Agrees layout .mute whitespace Grammar.blank fun _ _ _ ↦ True := by
  have hmirror : Agrees layout .mute whitespace
      (((Peg.literal " ").map fun _ ↦ ' ').choice ((Peg.literal "\t").map fun _ ↦ '\t') :
        Grammar.Expr Char) fun _ _ _ ↦ True :=
    ((literal " ").map fun _ _ _ _ ↦ trivial).choice ((literal "\t").map fun _ _ _ _ ↦ trivial)
  apply hmirror.congr
  intro c
  obtain ⟨rest, pos⟩ := c
  cases rest with
  | nil => rfl
  | cons a rest =>
    by_cases hs : a = ' '
    · subst hs
      rfl
    · by_cases ht : a = '\t'
      · subst ht
        rfl
      · simp [Grammar.blank, Peg.outcome, Peg.dropText?, hs, ht, Ne.symm hs, Ne.symm ht]

/-- A gap skips the layout. -/
theorem skips_gap : Skips layout Grammar.gap := by
  have hgap : Agrees layout .mute layout Grammar.gap fun _ _ _ ↦ True :=
    (agrees_blank.many packed_mute rfl |>.seq packed_mute <|
      (agrees_comment.seq packed_mute (agrees_blank.many packed_mute rfl)).many
        packed_mute rfl).map fun _ _ _ _ ↦ trivial
  intro c
  obtain ⟨⟨u, mid⟩, hm⟩ : ∃ r, Grammar.gap.outcome c = some r := ⟨_, rfl⟩
  obtain ⟨w, gs, hw, hd, -⟩ := hgap.matched c u mid hm
  exact ⟨u, mid, gs, w, hm, hw, hd⟩

/-! ### Words -/

/-- A name agrees with its production. -/
theorem agrees_text : Agrees layout .loose text Grammar.text
    (fun _ ↦ Shows fun t ↦ some t.located) := by
  have hchar : Agrees layout .mute ((newline.choice (.text "//")).without.seq .any)
      ((Peg.without (.literal "//")).right (.satisfying fun c ↦ !Grammar.isBreak c) :
        Grammar.Expr Char) IsChar := by
    refine .charBut packed_mute (agrees_newline.choice (agrees_text_noTokens "//")) fun c ↦ ?_
    rw [Peg.outcome_without_right, Peg.outcome_without_right, Peg.isSome_outcome_choice]
    obtain ⟨rest, pos⟩ := c
    cases ((Peg.literal "//" : Grammar.Expr Unit).outcome ⟨rest, pos⟩).isSome with
    | true => simp
    | false =>
      cases rest with
      | nil => rw [Bool.or_false]; split <;> rfl
      | cons a rest =>
        rw [isSome_lineBreak]
        cases hb : Grammar.isBreak a <;> simp [Peg.outcome, hb]
  apply ((hchar.someChars packed_mute rfl).rule .atomic (by decide)).mono
  rintro w ts ⟨a, sp⟩ ⟨inner, rfl, rfl, -⟩
  exact ⟨_, rfl, rfl⟩

/-- A mode agrees with its production. -/
theorem agrees_modeValue : Agrees layout .loose modeValue Grammar.modeValue
    (fun _ ↦ Shows fun t ↦
      some ⟨if t.text = "strict".toList then .strict else .normal, t.span⟩) := by
  have hbody : Agrees layout .mute ((Pattern.text "normal").choice (.text "strict"))
      (((Peg.literal "normal").map fun _ ↦ Mode.normal).choice
        ((Peg.literal "strict").map fun _ ↦ Mode.strict) : Grammar.Expr Mode)
      fun w _ m ↦ m = if w = "strict".toList then .strict else .normal := by
    refine ((literal "normal").map ?_).choice ((literal "strict").map ?_)
    · rintro w ts - ⟨rfl, -⟩
      rfl
    · rintro w ts - ⟨rfl, -⟩
      rfl
  apply (hbody.rule .atomic (by decide)).mono
  rintro w ts ⟨m, sp⟩ ⟨inner, rfl, rfl⟩
  exact ⟨_, rfl, rfl⟩

/-- A digit agrees with its production. -/
theorem agrees_digit : Agrees layout .mute asciiDigit Grammar.digit IsChar := by
  apply (Agrees.range '0' '9').congr
  intro c
  have h : Char.isDigit = fun a ↦ decide ('0' ≤ a ∧ a ≤ '9') := by
    funext a
    simp [Char.isDigit, Char.le_def]
  rw [Grammar.digit, h]

/-- A number agrees with its production. -/
theorem agrees_count (hctx : ctx ≠ .mute) :
    Agrees layout ctx count Grammar.count (fun _ ↦ Shows fun t ↦ some t.located) := by
  apply ((agrees_digit.someChars packed_mute rfl).rule .atomic hctx).mono
  rintro w ts ⟨ds, sp⟩ ⟨inner, rfl, rfl, -⟩
  exact ⟨_, rfl, rfl⟩

/-- A state agrees with its production. -/
theorem agrees_state :
    Agrees layout .loose state Grammar.state (fun _ ↦ Shows Token.stateDigits?) := by
  have hbody : Agrees layout .tight ((Pattern.text "q").optional.seq count)
      ((Peg.literal "q").optional.right Grammar.count) (fun _ ↦ Shows fun t ↦ some t.located) := by
    apply ((literal "q").optional.seq packed_tight (agrees_count (by decide))).map
    rintro w ts ⟨o, ds⟩ ⟨w₁, w₂, ts₁, ts₂, rfl, rfl, ho, t, rfl, ht⟩
    cases o with
    | none => exact ⟨t, by rw [ho.2]; rfl, ht⟩
    | some _ => exact ⟨t, by rw [ho.2]; rfl, ht⟩
  apply (hbody.rule .compound (by decide)).map
  rintro w ts ⟨ds, sp⟩ ⟨inner, rfl, t, rfl, ht⟩
  exact ⟨_, rfl, ht⟩

/-- A letter agrees with its production. -/
theorem agrees_action :
    Agrees layout .loose action Grammar.action (fun _ ↦ Shows Token.actionLetter?) := by
  have hbody : Agrees layout .mute asciiAlpha
      (.satisfying Char.isAlpha : Grammar.Expr Char) IsChar := by
    apply ((Agrees.range 'a' 'z').choice (Agrees.range 'A' 'Z')).congr
    intro c
    obtain ⟨rest, pos⟩ := c
    cases rest with
    | nil => rfl
    | cons a rest =>
      have h : a.isAlpha = (decide ('a' ≤ a ∧ a ≤ 'z') || decide ('A' ≤ a ∧ a ≤ 'Z')) := by
        show (decide (a.val ≥ 'A'.val ∧ a.val ≤ 'Z'.val) ||
          (decide (a.val ≥ 'a'.val) && decide (a.val ≤ 'z'.val))) = _
        simp [Char.le_def, Bool.or_comm]
      simp only [Peg.outcome, h]
      cases decide ('a' ≤ a ∧ a ≤ 'z') <;> cases decide ('A' ≤ a ∧ a ≤ 'Z') <;> rfl
  apply (hbody.rule .atomic (by decide)).mono
  rintro w ts ⟨a, sp⟩ ⟨inner, rfl, rfl, -⟩
  exact ⟨_, rfl, rfl⟩

/-- A head position agrees with its production. -/
theorem agrees_position : Agrees layout .loose position Grammar.position
    (fun _ ↦ Shows fun t ↦ some t.positionText) := by
  have hdigits : Grammar.digit.some.Yields fun ds ↦ ds ≠ [] ∧ ∀ d ∈ ds, d.isDigit = true :=
    (Peg.Yields.satisfying Char.isDigit).some
  have hbody : Agrees layout .mute ((Pattern.text "-").optional.seq asciiDigit.some)
      (((Peg.literal "-").optional.seq Grammar.digit.some).map
        fun p ↦ (⟨p.1.isSome, p.2⟩ : PositionText))
      fun w _ p ↦ ∀ sp inner,
        (Token.node RuleName.position sp w inner).positionText = ⟨p, sp⟩ := by
    refine ((literal "-").optional.seq packed_mute
      ((agrees_digit.someChars packed_mute rfl).and_yields hdigits)).map ?_
    rintro w ts ⟨o, ds⟩ ⟨w₁, w₂, ts₁, ts₂, rfl, rfl, ho, ⟨hw, -⟩, hne, hd⟩ sp inner
    obtain rfl : w₂ = ds := hw
    cases o with
    | none =>
      obtain ⟨d, ds, rfl⟩ := List.exists_cons_of_ne_nil hne
      have hminus : d ≠ '-' := by
        rintro rfl
        exact absurd (hd '-' List.mem_cons_self) (by decide)
      rw [ho.1]
      simp [Token.positionText, hminus]
    | some _ =>
      rw [ho.1]
      rfl
  apply (hbody.rule .atomic (by decide)).mono
  rintro w ts ⟨p, sp⟩ ⟨inner, rfl, hp⟩
  exact ⟨_, rfl, congrArg some (hp sp inner)⟩

private theorem isSome_mark (s : String) (m a : Char) (hs : s.toList = [m]) (rest : List Char)
    (pos : Nat) : ((Peg.literal s : Grammar.Expr Unit).outcome ⟨a :: rest, pos⟩).isSome =
      decide (a = m) := by
  rw [Peg.isSome_outcome_literal, hs, Bool.eq_iff_iff, List.isPrefixOf_iff_prefix,
    List.cons_prefix_cons, decide_eq_true_eq]
  exact ⟨fun h ↦ h.1.symm, fun h ↦ ⟨h.symm, List.nil_prefix⟩⟩

/-- What stands between two texts agrees with its production. -/
theorem agrees_enclosed {p : Pattern RuleName} {e : Grammar.Expr α}
    {Q : List (Token RuleName) → α → Prop} (s s' : String) (hctx : ctx.Packed)
    (h : Agrees layout ctx p e fun _ ↦ Q) :
    Agrees layout ctx ((Pattern.text s).seq (p.seq (.text s')))
      ((Peg.literal s).right (e.left (Peg.literal s'))) fun _ ↦ Q := by
  have hleft : Agrees layout ctx (p.seq (.text s')) (e.left (Peg.literal s')) fun _ ↦ Q := by
    apply (h.seq hctx (agrees_text_noTokens s')).map
    rintro w ts ⟨a, u⟩ ⟨w₁, w₂, ts₁, ts₂, -, rfl, ha, rfl⟩
    rwa [List.append_nil]
  apply ((agrees_text_noTokens s).seq hctx hleft).map
  rintro w ts ⟨u, a⟩ ⟨w₁, w₂, ts₁, ts₂, -, rfl, rfl, ha⟩
  exact ha

/-- A character between single quotes agrees with its production. -/
theorem agrees_symbolChar : Agrees layout .tight symbolChar
    (.rule .symbolChar (.satisfying fun c ↦ !(c = '\'' || Grammar.isBreak c)) :
      Grammar.Expr (Located Char))
    (fun _ ts v ↦ ∃ s, ts = [s] ∧ s.text.head? = some v.value) := by
  have hchar : Agrees layout .mute (((Pattern.text "'").choice newline).without.seq .any)
      (.satisfying fun c ↦ !(c = '\'' || Grammar.isBreak c) : Grammar.Expr Char) IsChar :=
    .charBut packed_mute ((agrees_text_noTokens "'").choice agrees_newline) <|
      Peg.outcome_satisfying_eq fun a rest pos ↦ by
        rw [Peg.isSome_outcome_choice, isSome_lineBreak, isSome_mark "'" '\'' a rfl, Bool.not_not]
  apply (hchar.rule .atomic (by decide)).mono
  rintro w ts ⟨a, sp⟩ ⟨inner, rfl, rfl, -⟩
  exact ⟨_, rfl, rfl⟩

/-- A symbol in quotes agrees with its production. -/
theorem agrees_quotedSymbol : Agrees layout .tight quotedSymbol Grammar.quotedSymbol
    (fun _ ts v ↦ ∃ t s, ts = [t] ∧ t.rule = .quotedSymbol ∧ t.inner.head? = some s ∧
      s.text.head? = some v.value.value) := by
  refine ((agrees_enclosed "'" "'" packed_tight agrees_symbolChar).rule .compound
    (by decide)).mono ?_
  rintro w ts ⟨v, sp⟩ ⟨inner, rfl, s, rfl, hs⟩
  exact ⟨_, s, rfl, rfl, rfl, hs⟩

/-- A symbol without quotes agrees with its production. -/
theorem agrees_bareSymbol : Agrees layout .tight bareSymbol Grammar.bareSymbol
    (fun _ ts v ↦ ∃ t, ts = [t] ∧ t.rule = .bareSymbol ∧ t.text.head? = some v.value) := by
  have hmark : ∀ s : String, Agrees layout .mute (.text s) (.literal s : Grammar.Expr Unit)
      fun _ ↦ NoTokens := agrees_text_noTokens
  have hmarks := (hmark " ").choice <| (hmark "\t").choice <| (hmark ",").choice <|
    (hmark "(").choice <| (hmark ")").choice <| (hmark "'").choice <|
    (hmark "\"").choice agrees_newline
  have hchar := Agrees.charBut
    (e := .satisfying fun c ↦ !(Grammar.isMark c || Grammar.isBreak c)) packed_mute hmarks <|
      Peg.outcome_satisfying_eq fun a rest pos ↦ by
        simp only [Peg.isSome_outcome_choice, isSome_lineBreak, isSome_mark " " ' ' a rfl,
          isSome_mark "\t" '\t' a rfl, isSome_mark "," ',' a rfl, isSome_mark "(" '(' a rfl,
          isSome_mark ")" ')' a rfl, isSome_mark "'" '\'' a rfl, isSome_mark "\"" '"' a rfl,
          Grammar.isMark, Bool.or_assoc, Bool.not_not]
  apply (hchar.rule .atomic (by decide)).mono
  rintro w ts ⟨a, sp⟩ ⟨inner, rfl, rfl, -⟩
  exact ⟨_, rfl, rfl, rfl⟩

/-- A symbol agrees with its production. -/
theorem agrees_symbol :
    Agrees layout .loose symbol Grammar.symbol (fun _ ↦ Shows Token.symbolChar?) := by
  have hbody : Agrees layout .tight (quotedSymbol.choice bareSymbol)
      ((Grammar.quotedSymbol.map fun s ↦ s.value.value).choice
        (Grammar.bareSymbol.map Located.value))
      fun _ ts a ↦ ∀ sp w, (Token.node RuleName.symbol sp w ts).symbolChar? = some ⟨a, sp⟩ := by
    refine (agrees_quotedSymbol.map ?_).choice (agrees_bareSymbol.map ?_)
    · rintro w ts v ⟨t, s, rfl, ht, hi, hs⟩ sp w'
      simp [Token.symbolChar?, ht, hi, hs]
    · rintro w ts v ⟨t, rfl, ht, hs⟩ sp w'
      simp [Token.symbolChar?, ht, hs]
  apply (hbody.rule .compound (by decide)).mono
  rintro w ts ⟨a, sp⟩ ⟨inner, rfl, hs⟩
  exact ⟨_, rfl, hs sp w⟩

/-- A tape agrees with its production. -/
theorem agrees_tape : Agrees layout .loose tape Grammar.tape
    (fun _ ↦ Shows fun t ↦ t.inner.head?.map Token.located) := by
  have hchar : Agrees layout .mute (((Pattern.text "\"").choice newline).without.seq .any)
      (.satisfying fun c ↦ !(c = '"' || Grammar.isBreak c) : Grammar.Expr Char) IsChar :=
    .charBut packed_mute ((agrees_text_noTokens "\"").choice agrees_newline) <|
      Peg.outcome_satisfying_eq fun a rest pos ↦ by
        rw [Peg.isSome_outcome_choice, isSome_lineBreak, isSome_mark "\"" '"' a rfl, Bool.not_not]
  have hinner : Agrees layout .tight tapeInner
      (.rule .tapeInner (Peg.many (.satisfying fun c ↦ !(c = '"' || Grammar.isBreak c))) :
        Grammar.Expr (Located (List Char))) (fun _ ↦ Shows fun t ↦ some t.located) := by
    apply ((hchar.chars packed_mute rfl).rule .atomic (by decide)).mono
    rintro w ts ⟨as, sp⟩ ⟨inner, rfl, rfl, -⟩
    exact ⟨_, rfl, rfl⟩
  refine ((agrees_enclosed "\"" "\"" packed_tight hinner).rule .compound
    (by decide)).map ?_
  rintro w ts ⟨v, sp⟩ ⟨inner, rfl, t, rfl, ht⟩
  exact ⟨_, rfl, ht⟩

/-! ### Sections -/

section Parts

variable {p : Pattern RuleName} {e : Grammar.Expr α} {q : Pattern RuleName} {f : Grammar.Expr β}
  {Q : List (Token RuleName) → α → Prop} {Q' : List (Token RuleName) → β → Prop}

/-- Two parts with a gap between them agree with their sequence. -/
theorem agrees_pair (h : Agrees layout .loose p e fun _ ↦ Q)
    (h' : Agrees layout .loose q f fun _ ↦ Q') :
    Agrees layout .loose (p.seq q) (Grammar.pair e f)
      fun _ ts v ↦ ∃ ts₁ ts₂, ts = ts₁ ++ ts₂ ∧ Q ts₁ v.1 ∧ Q' ts₂ v.2 := by
  apply (h.pair skips_gap h').mono
  rintro w ts v ⟨-, -, hts⟩
  exact hts

/-- A part after a text agrees with their sequence. -/
theorem agrees_after (s : String) (h : Agrees layout .loose p e fun _ ↦ Q) :
    Agrees layout .loose ((Pattern.text s).seq p) (Grammar.after s e) fun _ ↦ Q := by
  apply (agrees_pair (agrees_text_noTokens s) h).map
  rintro w ts v ⟨ts₁, ts₂, rfl, rfl, hv⟩
  exact hv

/-- A part before a text agrees with their sequence. -/
theorem agrees_before (h : Agrees layout .loose p e fun _ ↦ Q) (s : String) :
    Agrees layout .loose (p.seq (.text s)) (Grammar.before e s) fun _ ↦ Q := by
  apply (agrees_pair h (agrees_text_noTokens s)).map
  rintro w ts v ⟨ts₁, ts₂, rfl, hv, rfl⟩
  rwa [List.append_nil]

private theorem agrees_list (hreads : e.reads = true) (h : Agrees layout .loose p e fun _ ↦ Q) :
    Agrees layout .loose p.many (Grammar.list e)
      fun _ ts as ↦ ∃ w, Each (fun _ ↦ Q) w ts as := by
  apply (h.list skips_gap hreads).map
  rintro w ts (_ | ⟨a, as⟩) hts
  · obtain rfl : ts = [] := hts
    exact ⟨[], .nil⟩
  · exact hts

/-- Parts with tokens that show them agree with their repetition. -/
theorem agrees_listOf {read : Token RuleName → Option α} (hreads : e.reads = true)
    (h : Agrees layout .loose p e fun _ ↦ Shows read) :
    Agrees layout .loose p.many (Grammar.list e) fun _ ↦ ShowsAll read := by
  apply (agrees_list hreads h).mono
  rintro w ts as ⟨w', hts⟩
  exact showsAll_of_each hts

/-- Parts without tokens agree with their repetition. -/
theorem agrees_listOf_noTokens (hreads : e.reads = true)
    (h : Agrees layout .loose p e fun _ ↦ NoTokens) :
    Agrees layout .loose p.many (Grammar.list e) fun _ ↦ NoTokens := by
  apply (agrees_list hreads h).mono
  rintro w ts as ⟨w', hts⟩
  exact noTokens_of_each hts

/-- A rule agrees with its production if the tokens inside show what it gives. -/
theorem agrees_rule {n n' : RuleName} (read : RuleName → List (Token RuleName) → Option α)
    (h : Agrees layout .loose p e fun _ ts a ↦ read n ts = some a) :
    Agrees layout .loose (.rule n .plain p) (.rule n' e)
      fun _ ↦ Shows fun t ↦ (read t.rule t.inner).map (⟨·, t.span⟩) := by
  apply (h.rule .plain (by decide)).mono
  rintro w ts ⟨a, sp⟩ ⟨inner, rfl, ha⟩
  refine ⟨_, rfl, ?_⟩
  simp only [Token.rule_node, Token.inner_node, Token.span_node, ha, Option.map_some]

end Parts

/-- Line breaks agree with their production. -/
theorem agrees_breaks : Agrees layout .loose newline.some Grammar.breaks fun _ ↦ NoTokens := by
  apply (agrees_pair agrees_newline (agrees_listOf_noTokens rfl agrees_newline)).map
  rintro w ts v ⟨ts₁, ts₂, rfl, rfl, rfl⟩
  rfl

/-- A part on a line of its own agrees with the sequence. -/
theorem agrees_onLine {p : Pattern RuleName} {e : Grammar.Expr α}
    {Q : List (Token RuleName) → α → Prop} (h : Agrees layout .loose p e fun _ ↦ Q) :
    Agrees layout .loose (newline.some.seq p) ((Grammar.pair Grammar.breaks e).map Prod.snd)
      fun _ ↦ Q := by
  apply (agrees_pair agrees_breaks h).map
  rintro w ts v ⟨ts₁, ts₂, rfl, rfl, hv⟩
  exact hv

/-- A rule of the table agrees with its production. -/
theorem agrees_transition : Agrees layout .loose transition Grammar.transition
    fun _ ↦ Shows fun t ↦ (Token.ruleText? t.inner).map (⟨·, t.span⟩) := by
  refine agrees_rule (fun _ ↦ Token.ruleText?) ((agrees_after "(" <| agrees_pair agrees_state <|
    agrees_after "," <| agrees_pair agrees_symbol <| agrees_after ")" <| agrees_after "->" <|
    agrees_after "(" <| agrees_pair agrees_state <| agrees_after "," <|
    agrees_pair agrees_symbol <| agrees_after "," <| agrees_before agrees_action ")").map ?_)
  rintro w ts ⟨state, symbol, next, write, action⟩
    ⟨-, -, rfl, ⟨t₁, rfl, h₁⟩, -, -, rfl, ⟨t₂, rfl, h₂⟩, -, -, rfl, ⟨t₃, rfl, h₃⟩,
      -, -, rfl, ⟨t₄, rfl, h₄⟩, t₅, rfl, h₅⟩
  simp [Token.ruleText?, h₁, h₂, h₃, h₄, h₅]

/-- An input agrees with its production. -/
theorem agrees_run : Agrees layout .loose run Grammar.run
    fun _ ↦ Shows fun t ↦ (Token.runText? t.inner).map (⟨·, t.span⟩) := by
  refine agrees_rule (fun _ ↦ Token.runText?)
    ((agrees_pair agrees_tape (agrees_after "@" agrees_position)).map ?_)
  rintro w ts ⟨tape, position⟩ ⟨-, -, rfl, ⟨t₁, rfl, h₁⟩, t₂, rfl, h₂⟩
  obtain ⟨s, hs, rfl⟩ := Option.map_eq_some_iff.mp h₁
  obtain rfl := Option.some.inj h₂
  simp [Token.runText?, hs]

/-- A section agrees with its production. -/
theorem agrees_anySection :
    Agrees layout .loose anySection Grammar.anySection fun _ ↦ Shows Token.section? := by
  refine .choice (agrees_rule Token.sectionText? ?_) <|
    .choice (agrees_rule Token.sectionText? ?_) <| .choice (agrees_rule Token.sectionText? ?_) <|
    .choice (agrees_rule Token.sectionText? ?_) <| .choice (agrees_rule Token.sectionText? ?_) <|
    .choice (agrees_rule Token.sectionText? ?_) (agrees_rule Token.sectionText? ?_)
  · apply (agrees_after "name:" agrees_text).map
    rintro w ts v ⟨t, rfl, ht⟩
    rw [← Option.some.inj ht]
    rfl
  · apply (agrees_after "mode:" agrees_modeValue).map
    rintro w ts v ⟨t, rfl, ht⟩
    rw [← Option.some.inj ht]
    rfl
  · apply (agrees_after "states:" (agrees_count (by decide))).map
    rintro w ts v ⟨t, rfl, ht⟩
    rw [← Option.some.inj ht]
    rfl
  · apply (agrees_after "start:" agrees_state).map
    rintro w ts v ⟨t, rfl, ht⟩
    simp [Token.sectionText?, ht]
  · refine (agrees_after "alphabet:" <| agrees_pair agrees_symbol <|
      agrees_listOf rfl <| agrees_after "," agrees_symbol).map ?_
    rintro w ts ⟨a, as⟩ ⟨-, ts, rfl, ⟨t, rfl, ht⟩, hts⟩
    rw [ShowsAll] at hts
    simp [Token.sectionText?, ht, hts]
  · refine (agrees_after "transitions:" <| agrees_listOf rfl <|
      agrees_onLine agrees_transition).map ?_
    intro w ts rs hts
    rw [ShowsAll] at hts
    rw [Token.sectionText?, hts, Option.map_some]
  · have hrun : Agrees layout .loose (newline.some.seq run)
        ((Grammar.pair Grammar.breaks Grammar.run).map fun r ↦ r.2.value)
        fun _ ↦ Shows fun t ↦ Token.runText? t.inner := by
      apply (agrees_pair agrees_breaks agrees_run).map
      rintro w ts ⟨u, r⟩ ⟨-, -, rfl, rfl, t, rfl, ht⟩
      obtain ⟨r', hr, rfl⟩ := Option.map_eq_some_iff.mp ht
      exact ⟨t, rfl, hr⟩
    apply (agrees_after "runs:" (agrees_listOf rfl hrun)).map
    intro w ts rs hts
    rw [ShowsAll] at hts
    rw [Token.sectionText?, hts, Option.map_some]

/-! ### Files -/

/-- What stands in a file agrees with its production: the tokens of the sections, and the token of
the end. -/
theorem agrees_body : Agrees layout .loose
    (newline.many.seq <| (anySection.seq newline.many).many.seq endOfInput)
    (Grammar.pair (Grammar.list Grammar.lineBreak)
      (Grammar.pair (Grammar.list ((Grammar.pair Grammar.anySection
        (Grammar.list Grammar.lineBreak)).map Prod.fst)) (Peg.rule RuleName.endOfInput .ends)))
    fun _ ts v ↦ ∃ parts stop, ts = parts ++ [stop] ∧ parts.mapM Token.section? = some v.2.1 := by
  have hbreaks : Agrees layout .loose newline.many (Grammar.list Grammar.lineBreak)
      fun _ ↦ NoTokens := agrees_listOf_noTokens rfl agrees_newline
  have hsection : Agrees layout .loose (anySection.seq newline.many)
      ((Grammar.pair Grammar.anySection (Grammar.list Grammar.lineBreak)).map Prod.fst)
      fun _ ↦ Shows Token.section? := by
    apply (agrees_pair agrees_anySection hbreaks).map
    rintro w ts v ⟨ts₁, -, rfl, hv, rfl⟩
    rwa [List.append_nil]
  have hstop : Agrees layout .loose endOfInput
      (.rule .endOfInput .ends : Grammar.Expr (Located Unit)) fun _ ts _ ↦ ∃ stop, ts = [stop] := by
    apply (Agrees.ends.rule .plain (by decide)).mono
    rintro w ts v ⟨inner, rfl, -⟩
    exact ⟨_, rfl⟩
  apply (agrees_pair hbreaks (agrees_pair (agrees_listOf rfl hsection) hstop)).mono
  rintro w ts v ⟨-, -, rfl, rfl, parts, -, rfl, hparts, stop, rfl⟩
  exact ⟨parts, stop, rfl, hparts⟩

/-- What becomes of a file is what the grammar derives. -/
theorem derives_program (text : List Char) :
    (Grammar.file.outcome (.ofText text) = none →
      Derives layout .loose program (.ofText text) none) ∧
    ∀ sections next, Grammar.file.outcome (.ofText text) = some (sections, next) →
      ∃ t parts stop, Derives layout .loose program (.ofText text) (some ([t], next)) ∧
        t.inner = parts ++ [stop] ∧ parts.mapM Token.section? = some sections := by
  obtain ⟨hnone, hsome⟩ := agrees_body.starting skips_gap (c := .ofText text) rfl
  constructor
  · intro h
    rw [Grammar.file, Peg.outcome, Option.map_eq_none_iff, Peg.outcome,
      Option.map_eq_none_iff] at h
    exact .rule_none (hnone h)
  · intro sections next h
    rw [Grammar.file, Peg.outcome, Option.map_eq_some_iff] at h
    obtain ⟨⟨v, last⟩, hv, heq⟩ := h
    rw [Peg.outcome, Option.map_eq_some_iff] at hv
    obtain ⟨⟨b, last'⟩, hb, heq'⟩ := hv
    simp only [Prod.mk.injEq] at heq heq'
    obtain ⟨rfl, rfl⟩ := heq'
    obtain ⟨rfl, rfl⟩ := heq
    obtain ⟨w, -, ts, hw, hd, parts, stop, rfl, hparts⟩ := hsome b last' hb
    exact ⟨_, parts, stop, .rule hd hw.rest_eq, rfl, hparts⟩

end TapeMachine.Definition.Production
