import TapeMachine.Proofs.Peg.Derivation
import TapeMachine.Proofs.Peg.Value

/-!
# Agreement of expressions and patterns

A parsing expression agrees with a pattern if whatever becomes of the expression at a place is what
the pattern derives there: a refusal, or a match of the same stretch of text, with tokens that stand
for the value. There is one lemma for each way to build expressions and patterns, so an expression
that is built as its pattern is agrees with it.
-/

namespace TapeMachine

open Peg (Cursor)

variable {ρ σ α β γ : Type} {layout : Pattern ρ} {ctx : Context}

/-- The outcomes of an expression are those that a pattern derives. `R` says how the word that was
read and the tokens stand for the value. -/
structure Agrees (layout : Pattern ρ) (ctx : Context) (p : Pattern ρ) (e : Peg σ α)
    (R : List Char → List (Token ρ) → α → Prop) : Prop where
  refused : ∀ c, e.outcome c = none → Derives layout ctx p c none
  matched : ∀ c a next, e.outcome c = some (a, next) →
    ∃ w ts, c.Passes w next ∧ Derives layout ctx p c (some (ts, next)) ∧ R w ts a

/-- The word and the tokens of a repetition stand for its values one after another. -/
inductive Each (R : List Char → List (Token ρ) → α → Prop) :
    List Char → List (Token ρ) → List α → Prop
  | nil : Each R [] [] []
  | cons {v w : List Char} {ts us : List (Token ρ)} {a : α} {as : List α} :
      R v ts a → Each R w us as → Each R (v ++ w) (ts ++ us) (a :: as)

/-- A character stands for itself and leaves no token. -/
def IsChar (w : List Char) (ts : List (Token ρ)) (a : Char) : Prop := w = [a] ∧ ts = []

/-- Characters stand for themselves and leave no tokens. -/
def IsChars (w : List Char) (ts : List (Token ρ)) (as : List Char) : Prop := w = as ∧ ts = []

/-- A context in which nothing is skipped. -/
def Context.Packed (ctx : Context) : Prop := ∀ {ρ : Type} (layout : Pattern ρ) (c : Cursor),
  Derives layout .mute (ctx.between layout) c (some ([], c))

/-- The expression always matches, and reads what the layout skips. -/
def Skips (layout : Pattern ρ) (g : Peg σ γ) : Prop := ∀ c, ∃ x mid gs w,
  g.outcome c = some (x, mid) ∧ c.Passes w mid ∧ Derives layout .mute layout c (some (gs, mid))

theorem packed_tight : Context.tight.Packed := fun _ _ ↦ .text rfl

theorem packed_mute : Context.mute.Packed := fun _ _ ↦ .text rfl

namespace Agrees

variable {p q : Pattern ρ} {e : Peg σ α} {f : Peg σ β} {R S : List Char → List (Token ρ) → α → Prop}
  {T : List Char → List (Token ρ) → β → Prop}

/-- Less may be said about the tokens. -/
theorem mono (h : Agrees layout ctx p e R) (hRS : ∀ w ts a, R w ts a → S w ts a) :
    Agrees layout ctx p e S := by
  refine ⟨h.refused, fun c a next hc ↦ ?_⟩
  obtain ⟨w, ts, hw, hd, hr⟩ := h.matched c a next hc
  exact ⟨w, ts, hw, hd, hRS w ts a hr⟩

/-- What holds of every value of an expression may be said about the values. -/
theorem and_yields {V : α → Prop} (h : Agrees layout ctx p e R) (hv : e.Yields V) :
    Agrees layout ctx p e fun w ts a ↦ R w ts a ∧ V a := by
  refine ⟨h.refused, fun c a next hc ↦ ?_⟩
  obtain ⟨w, ts, hw, hd, hr⟩ := h.matched c a next hc
  exact ⟨w, ts, hw, hd, hr, hv c a next hc⟩

/-- Only the outcomes of an expression matter. -/
theorem congr {e' : Peg σ α} (h : Agrees layout ctx p e R) (he : ∀ c, e'.outcome c = e.outcome c) :
    Agrees layout ctx p e' R := by
  refine ⟨fun c hc ↦ h.refused c ((he c).symm.trans hc), fun c a next hc ↦ ?_⟩
  exact h.matched c a next ((he c).symm.trans hc)

/-- The tokens stand for another value. -/
theorem map (h : Agrees layout ctx p e R) {g : α → β} (hRT : ∀ w ts a, R w ts a → T w ts (g a)) :
    Agrees layout ctx p (e.map g) T := by
  refine ⟨fun c hc ↦ h.refused c ?_, fun c b next hc ↦ ?_⟩
  · rwa [Peg.outcome, Option.map_eq_none_iff] at hc
  · rw [Peg.outcome, Option.map_eq_some_iff] at hc
    obtain ⟨⟨a, last⟩, ha, heq⟩ := hc
    simp only [Prod.mk.injEq] at heq
    obtain ⟨rfl, rfl⟩ := heq
    obtain ⟨w, ts, hw, hd, hr⟩ := h.matched c a last ha
    exact ⟨w, ts, hw, hd, hRT w ts a hr⟩

/-! ### Characters -/

/-- A text agrees with itself. -/
theorem literal (s : String) : Agrees layout ctx (.text s) (.literal s : Peg σ Unit)
    fun w ts _ ↦ w = s.toList ∧ ts = [] := by
  refine ⟨fun c hc ↦ .text_none ?_, fun c a next hc ↦ ?_⟩
  · rwa [Peg.outcome, Option.map_eq_none_iff, Peg.dropText?_eq_none_iff] at hc
  · rw [Peg.outcome, Option.map_eq_some_iff] at hc
    obtain ⟨rest, hr, heq⟩ := hc
    simp only [Prod.mk.injEq] at heq
    obtain ⟨-, rfl⟩ := heq
    rw [Peg.dropText?_eq_some_iff] at hr
    exact ⟨s.toList, [], ⟨hr, by rw [String.length_toList]⟩, .text hr, rfl, rfl⟩

private theorem outcome_satisfying_eq_none {P : Char → Bool} {c : Cursor}
    (h : (Peg.satisfying P : Peg σ Char).outcome c = none) (a : Char) (rest : List Char)
    (hc : c.rest = a :: rest) : P a = false := by
  rw [Peg.outcome, hc] at h
  simpa using h

/-- A range agrees with the class of its characters. -/
theorem range (low high : Char) : Agrees layout ctx (.range low high)
    (.satisfying fun a ↦ decide (low ≤ a ∧ a ≤ high) : Peg σ Char)
    IsChar := by
  refine ⟨fun c hc ↦ .range_none fun a rest hr ↦ ?_, fun c a next hc ↦ ?_⟩
  · simpa using outcome_satisfying_eq_none hc a rest hr
  · obtain ⟨ha, hpass⟩ := Peg.passes_of_outcome_satisfying hc
    refine ⟨[a], [], hpass, ?_, rfl, rfl⟩
    rw [hpass.eq]
    exact .range hpass.rest_eq (of_decide_eq_true ha)

/-- Any character agrees with the class of all characters. -/
theorem any : Agrees layout ctx .any (.satisfying fun _ ↦ true : Peg σ Char)
    IsChar := by
  refine ⟨fun c hc ↦ .any_none ?_, fun c a next hc ↦ ?_⟩
  · cases hr : c.rest with
    | nil => rfl
    | cons a rest => cases outcome_satisfying_eq_none hc a rest hr
  · obtain ⟨-, hpass⟩ := Peg.passes_of_outcome_satisfying hc
    refine ⟨[a], [], hpass, ?_, rfl, rfl⟩
    rw [hpass.eq]
    exact .any hpass.rest_eq

/-- The end of the text agrees with itself. -/
theorem ends : Agrees layout ctx .ends (.ends : Peg σ Unit) fun w ts _ ↦ w = [] ∧ ts = [] := by
  refine ⟨fun c hc ↦ .ends_none fun hr ↦ ?_, fun c a next hc ↦ ?_⟩
  · simp [Peg.outcome, hr] at hc
  · rw [Peg.outcome] at hc
    split at hc
    · next hr =>
      cases hc
      exact ⟨[], [], c.passes_nil, .ends hr, rfl, rfl⟩
    · cases hc

/-! ### Sequences -/

/-- Where nothing is skipped, a sequence agrees with the sequence of its parts. -/
theorem seq (hctx : ctx.Packed) (hp : Agrees layout ctx p e R) (hq : Agrees layout ctx q f T) :
    Agrees layout ctx (p.seq q) (e.seq f) fun w ts v ↦
      ∃ w₁ w₂ ts₁ ts₂, w = w₁ ++ w₂ ∧ ts = ts₁ ++ ts₂ ∧ R w₁ ts₁ v.1 ∧ T w₂ ts₂ v.2 := by
  constructor
  · intro c hc
    cases ha : e.outcome c with
    | none => exact .seq_none (hp.refused c ha)
    | some x =>
      obtain ⟨w, ts, -, hd, -⟩ := hp.matched c x.1 x.2 ha
      refine .seq_some_none hd (hctx layout x.2) (hq.refused x.2 ?_)
      simpa [Peg.outcome, ha] using hc
  · intro c v last hc
    simp only [Peg.outcome, Option.bind_eq_some_iff, Option.map_eq_some_iff] at hc
    obtain ⟨⟨a, c₁⟩, ha, ⟨b, c₂⟩, hb, heq⟩ := hc
    simp only [Prod.mk.injEq] at heq
    obtain ⟨rfl, rfl⟩ := heq
    obtain ⟨w₁, ts₁, hw₁, hd₁, hr₁⟩ := hp.matched c a c₁ ha
    obtain ⟨w₂, ts₂, hw₂, hd₂, hr₂⟩ := hq.matched c₁ b c₂ hb
    exact ⟨w₁ ++ w₂, ts₁ ++ ts₂, hw₁.append hw₂, .seq hd₁ (hctx layout c₁) hd₂,
      w₁, w₂, ts₁, ts₂, rfl, rfl, hr₁, hr₂⟩

/-- Where layout is skipped, a sequence with a gap agrees with the sequence of its parts. -/
theorem pair {g : Peg σ γ} (hg : Skips layout g) (hp : Agrees layout .loose p e R)
    (hq : Agrees layout .loose q f T) :
    Agrees layout .loose (p.seq q) (e.seq (g.right f)) fun _ ts v ↦
      ∃ w₁ w₂ ts₁ ts₂, ts = ts₁ ++ ts₂ ∧ R w₁ ts₁ v.1 ∧ T w₂ ts₂ v.2 := by
  constructor
  · intro c hc
    cases ha : e.outcome c with
    | none => exact .seq_none (hp.refused c ha)
    | some x =>
      obtain ⟨w, ts, -, hd, -⟩ := hp.matched c x.1 x.2 ha
      obtain ⟨y, mid, gs, -, hy, -, hgap⟩ := hg x.2
      refine .seq_some_none hd hgap (hq.refused mid ?_)
      rw [Peg.outcome, ha, Option.bind_some, Option.map_eq_none_iff] at hc
      rwa [Peg.outcome_right_of_some hy] at hc
  · intro c v last hc
    rw [Peg.outcome, Option.bind_eq_some_iff] at hc
    obtain ⟨⟨a, c₁⟩, ha, hc⟩ := hc
    obtain ⟨⟨b, c₃⟩, hb, heq⟩ := Option.map_eq_some_iff.mp hc
    simp only [Prod.mk.injEq] at heq
    obtain ⟨rfl, rfl⟩ := heq
    obtain ⟨w₁, ts₁, hw₁, hd₁, hr₁⟩ := hp.matched c a c₁ ha
    obtain ⟨y, mid, gs, w₂, hy, hw₂, hgap⟩ := hg c₁
    rw [Peg.outcome_right_of_some hy] at hb
    obtain ⟨w₃, ts₂, hw₃, hd₂, hr₂⟩ := hq.matched mid b c₃ hb
    exact ⟨w₁ ++ (w₂ ++ w₃), ts₁ ++ ts₂, hw₁.append (hw₂.append hw₃), .seq hd₁ hgap hd₂,
      w₁, w₃, ts₁, ts₂, rfl, hr₁, hr₂⟩

/-- At the start of the text, what stands behind a gap agrees with what stands behind the start. -/
theorem starting {g : Peg σ γ} (hg : Skips layout g) (hp : Agrees layout .loose p e R) {c : Cursor}
    (hc : c.pos = 0) :
    ((g.right e).outcome c = none → Derives layout .loose (Pattern.starts.seq p) c none) ∧
      ∀ a next, (g.right e).outcome c = some (a, next) → ∃ w v ts, c.Passes w next ∧
        Derives layout .loose (Pattern.starts.seq p) c (some (ts, next)) ∧ R v ts a := by
  obtain ⟨y, mid, gs, u, hy, hu, hgap⟩ := hg c
  rw [Peg.outcome_right_of_some hy]
  constructor
  · intro he
    exact .seq_some_none (.starts hc) hgap (hp.refused mid he)
  · intro a next he
    obtain ⟨v, ts, hv, hd, hr⟩ := hp.matched mid a next he
    exact ⟨u ++ v, v, ts, hu.append hv, .seq (.starts hc) hgap hd, hr⟩

/-! ### Choices and repetitions -/

/-- An ordered choice agrees with the ordered choice of its patterns. -/
theorem choice {e' : Peg σ α} (hp : Agrees layout ctx p e R) (hq : Agrees layout ctx q e' R) :
    Agrees layout ctx (p.choice q) (e.choice e') R := by
  constructor
  · intro c hc
    rw [Peg.outcome, Option.or_eq_none_iff] at hc
    exact .choice_none (hp.refused c hc.1) (hq.refused c hc.2)
  · intro c a next hc
    rw [Peg.outcome, Option.or_eq_some_iff] at hc
    rcases hc with hc | ⟨hn, hc⟩
    · obtain ⟨w, ts, hw, hd, hr⟩ := hp.matched c a next hc
      exact ⟨w, ts, hw, .choice hd, hr⟩
    · obtain ⟨w, ts, hw, hd, hr⟩ := hq.matched c a next hc
      exact ⟨w, ts, hw, .choice_none (hp.refused c hn) hd, hr⟩

/-- An option agrees with the option of its pattern. -/
theorem optional (hp : Agrees layout ctx p e R) :
    Agrees layout ctx p.optional e.optional fun w ts o ↦
      match o with
      | none => w = [] ∧ ts = []
      | some a => R w ts a := by
  constructor
  · intro c hc
    rw [Peg.outcome] at hc
    split at hc <;> cases hc
  · intro c o next hc
    rw [Peg.outcome] at hc
    split at hc
    · next a last ha =>
      simp only [Option.some.injEq, Prod.mk.injEq] at hc
      obtain ⟨rfl, rfl⟩ := hc
      obtain ⟨w, ts, hw, hd, hr⟩ := hp.matched c a last ha
      exact ⟨w, ts, hw, .optional hd, hr⟩
    · next ha =>
      simp only [Option.some.injEq, Prod.mk.injEq] at hc
      obtain ⟨rfl, rfl⟩ := hc
      exact ⟨[], [], c.passes_nil, .optional_none (hp.refused c ha), rfl, rfl⟩

/-- A look-ahead agrees with the look-ahead of its pattern. -/
theorem without (hp : Agrees layout ctx p e R) :
    Agrees layout ctx p.without e.without fun w ts _ ↦ w = [] ∧ ts = [] := by
  constructor
  · intro c hc
    rw [Peg.outcome] at hc
    split at hc
    · next hs =>
      obtain ⟨x, hx⟩ := Option.isSome_iff_exists.mp hs
      obtain ⟨w, ts, -, hd, -⟩ := hp.matched c x.1 x.2 hx
      exact .without_none hd
    · cases hc
  · intro c u next hc
    rw [Peg.outcome] at hc
    split at hc
    · cases hc
    · next hs =>
      simp only [Option.some.injEq, Prod.mk.injEq] at hc
      obtain ⟨-, rfl⟩ := hc
      exact ⟨[], [], c.passes_nil, .without (hp.refused c (by simpa using hs)), rfl, rfl⟩

/-- The rounds after the first, each behind whatever `f` reads before it. -/
private theorem more_of_many {f : Peg σ α} (hreads : f.reads = true)
    (hnone : ∀ c, f.outcome c = none → Derives layout ctx p.more c (some ([], c)))
    (hsome : ∀ c a next, f.outcome c = some (a, next) → ∃ w ts, R w ts a ∧
      ∀ us last, Derives layout ctx p.more next (some (us, last)) →
        Derives layout ctx p.more c (some (ts ++ us, last)))
    {c last : Cursor} {as : List α} (h : f.many.outcome c = some (as, last)) :
    ∃ w ts, Derives layout ctx p.more c (some (ts, last)) ∧ Each R w ts as := by
  induction c using Peg.many_induction hreads generalizing as last with
  | stop c hc =>
    rw [Peg.outcome_many_of_none hc, Option.some.injEq, Prod.mk.injEq] at h
    obtain ⟨rfl, rfl⟩ := h
    exact ⟨[], [], hnone c hc, .nil⟩
  | again c a next hc ih =>
    obtain ⟨w, ts, hr, hd⟩ := hsome c a next hc
    obtain ⟨as', last', hm⟩ := Peg.exists_outcome_many f next
    rw [Peg.outcome_many_of_some hreads hc hm, Option.some.injEq, Prod.mk.injEq] at h
    obtain ⟨rfl, rfl⟩ := h
    obtain ⟨v, us, hus, he⟩ := ih hm
    exact ⟨w ++ v, ts ++ us, hd us last' hus, .cons hr he⟩

/-- Where nothing is skipped, a repetition agrees with the repetition of its pattern. -/
theorem many (hctx : ctx.Packed) (hreads : e.reads = true) (hp : Agrees layout ctx p e R) :
    Agrees layout ctx p.many e.many fun _ ts as ↦ ∃ w, Each R w ts as := by
  constructor
  · intro c hc
    rw [Peg.outcome] at hc
    cases hc
  · intro c as last hc
    obtain ⟨v, hv, -⟩ := Peg.outcome_passes hc
    cases ha : e.outcome c with
    | none =>
      rw [Peg.outcome_many_of_none ha, Option.some.injEq, Prod.mk.injEq] at hc
      obtain ⟨rfl, rfl⟩ := hc
      exact ⟨v, [], hv, .many_none (hp.refused c ha), [], .nil⟩
    | some x =>
      obtain ⟨a, next⟩ := x
      obtain ⟨as', last', hm⟩ := Peg.exists_outcome_many e next
      rw [Peg.outcome_many_of_some hreads ha hm, Option.some.injEq, Prod.mk.injEq] at hc
      obtain ⟨rfl, rfl⟩ := hc
      obtain ⟨w, ts, -, hd, hr⟩ := hp.matched c a next ha
      obtain ⟨w', us, hus, he⟩ := more_of_many (p := p) (R := R) hreads
        (fun c hc ↦ .more_none (hctx layout c) (hp.refused c hc))
        (fun c a next hc ↦ by
          obtain ⟨w, ts, -, hd, hr⟩ := hp.matched c a next hc
          exact ⟨w, ts, hr, fun us last hus ↦ .more (hctx layout c) hd hus⟩) hm
      exact ⟨v, ts ++ us, hv, .many hd hus, w ++ w', .cons hr he⟩

/-- Where layout is skipped, a repetition with gaps agrees with the repetition of its pattern. -/
theorem list {g : Peg σ γ} (hg : Skips layout g) (hreads : e.reads = true)
    (hp : Agrees layout .loose p e R) :
    Agrees layout .loose p.many (e.seq (g.right e).many).optional fun _ ts o ↦
      match o with
      | none => ts = []
      | some v => ∃ w, Each R w ts (v.1 :: v.2) := by
  constructor
  · intro c hc
    rw [Peg.outcome] at hc
    split at hc <;> cases hc
  · intro c o last hc
    obtain ⟨v, hv, -⟩ := Peg.outcome_passes hc
    rw [Peg.outcome] at hc
    cases ha : e.outcome c with
    | none =>
      simp only [Peg.outcome, ha, Option.bind_none, Option.some.injEq, Prod.mk.injEq] at hc
      obtain ⟨rfl, rfl⟩ := hc
      exact ⟨v, [], hv, .many_none (hp.refused c ha), rfl⟩
    | some x =>
      obtain ⟨a, next⟩ := x
      obtain ⟨as, last', hm⟩ := Peg.exists_outcome_many (g.right e) next
      have hseq : (e.seq (g.right e).many).outcome c = some ((a, as), last') := by
        rw [Peg.outcome, ha, Option.bind_some, hm]
        rfl
      rw [hseq, Option.some.injEq, Prod.mk.injEq] at hc
      obtain ⟨rfl, rfl⟩ := hc
      have hreads' : (g.right e).reads = true := Peg.reads_right g hreads
      obtain ⟨w, ts, -, hd, hr⟩ := hp.matched c a next ha
      obtain ⟨w', us, hus, he⟩ := more_of_many (p := p) (R := R) hreads'
        (fun c hc ↦ by
          obtain ⟨y, mid, gs, -, hy, -, hgap⟩ := hg c
          rw [Peg.outcome_right_of_some hy] at hc
          exact .more_none hgap (hp.refused mid hc))
        (fun c a next hc ↦ by
          obtain ⟨y, mid, gs, -, hy, -, hgap⟩ := hg c
          rw [Peg.outcome_right_of_some hy] at hc
          obtain ⟨w, ts, -, hd, hr⟩ := hp.matched mid a next hc
          exact ⟨w, ts, hr, fun us last hus ↦ .more hgap hd hus⟩) hm
      exact ⟨v, ts ++ us, hv, .many hd hus, w ++ w', .cons hr he⟩

/-- A repetition of characters agrees with the repetition of their pattern. -/
theorem chars {e : Peg σ Char} (hctx : ctx.Packed) (hreads : e.reads = true)
    (hp : Agrees layout ctx p e IsChar) : Agrees layout ctx p.many e.many IsChars := by
  refine ⟨(many hctx hreads hp).refused, fun c as last hc ↦ ?_⟩
  obtain ⟨v, ts, hv, hd, w, he⟩ := (many hctx hreads hp).matched c as last hc
  have hpass : c.Passes as last := by
    refine Peg.passes_of_outcome_many hreads (fun c a next ha ↦ ?_) hc
    obtain ⟨w, ts, hw, -, rfl, -⟩ := hp.matched c a next ha
    exact hw
  refine ⟨v, ts, hv, hd, hv.unique hpass, ?_⟩
  clear hc hd hpass
  induction he with
  | nil => rfl
  | cons hr _ ih => simp [hr.2, ih]

/-- Characters, one at least, agree with the repetition of their pattern. -/
theorem someChars {e : Peg σ Char} (hctx : ctx.Packed) (hreads : e.reads = true)
    (hp : Agrees layout ctx p e IsChar) : Agrees layout ctx p.some e.some IsChars := by
  apply (seq hctx hp (chars hctx hreads hp)).map
  rintro w ts ⟨a, as⟩ ⟨w₁, w₂, ts₁, ts₂, rfl, rfl, ⟨rfl, rfl⟩, rfl, rfl⟩
  exact ⟨rfl, rfl⟩

/-- A character other than what a look-ahead matches agrees with an expression of the same outcomes.
-/
theorem charBut {f : Peg σ β} {e : Peg σ Char} (hctx : ctx.Packed) (hf : Agrees layout ctx p f T)
    (he : ∀ c, e.outcome c = (f.without.right (.satisfying fun _ ↦ true)).outcome c) :
    Agrees layout ctx (p.without.seq .any) e IsChar := by
  refine congr ((seq hctx hf.without any).map ?_) he
  rintro w ts ⟨u, a⟩ ⟨w₁, w₂, ts₁, ts₂, rfl, rfl, ⟨rfl, rfl⟩, rfl, rfl⟩
  exact ⟨rfl, rfl⟩

/-! ### Rules -/

/-- A rule that leaves its token agrees with its pattern; the token shows what the rule read. -/
theorem rule {name : ρ} {name' : σ} (kind : RuleKind) (hctx : kind.outside ctx ≠ .mute)
    (hp : Agrees layout (kind.inside ctx) p e R) :
    Agrees layout ctx (.rule name kind p) (.rule name' e) fun w ts v ↦
      ∃ inner, ts = [.node name v.span w inner] ∧ R w inner v.value := by
  constructor
  · intro c hc
    rw [Peg.outcome, Option.map_eq_none_iff] at hc
    exact .rule_none (hp.refused c hc)
  · intro c v next hc
    rw [Peg.outcome, Option.map_eq_some_iff] at hc
    obtain ⟨⟨a, last⟩, ha, heq⟩ := hc
    simp only [Prod.mk.injEq] at heq
    obtain ⟨rfl, rfl⟩ := heq
    obtain ⟨w, ts, hw, hd, hr⟩ := hp.matched c a last ha
    have hleave : (kind.outside ctx).leave (.node name ⟨c.pos, last.pos⟩ w ts) ts =
        [.node name ⟨c.pos, last.pos⟩ w ts] := by
      cases h : kind.outside ctx with
      | loose => rfl
      | tight => rfl
      | mute => exact absurd h hctx
    exact ⟨w, _, hw, hleave ▸ .rule hd hw.rest_eq, ts, rfl, hr⟩

end Agrees

end TapeMachine
