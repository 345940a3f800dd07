import Mathlib.Data.List.Flatten
import Mathlib.Data.List.Forall2
import TapeMachine.Proofs.Definition.Content
import TapeMachine.Proofs.Definition.Parts

/-!
# Parts at fault

A part of a file is at fault if it has no meaning, and the heading of a section is if a section of
its kind came before (`AtFault`). Each reader accepts its parts if none is at fault, with the value
that they show, and otherwise refuses the first that is (`Inspects`). So the draft of a file holds
what all its sections show, or the file is refused for the first part of it that is at fault
(`inspects_ofSections`).
-/

namespace TapeMachine.Definition

variable {α β : Type}

/-! ### Faults -/

/-- The part is at fault in a file with these sections. -/
inductive AtFault (secs : List (Located Section)) : Located Part → Fault → Prop
  /-- A section of this kind begins further in front. -/
  | heading {s : Located Section} {kind : SectionKind} {span : Span} : s ∈ secs →
      s.value.kind = kind → s.span.start < span.start →
      AtFault secs ⟨.heading kind, span⟩ (.repeatedSection kind)
  /-- The number is greater than every count. -/
  | number {ds : Digits} {span : Span} : maxCount < Text.ofDigits ds →
      AtFault secs ⟨.number ds, span⟩ .numberTooLarge
  /-- The character is no symbol. -/
  | symbol {c : Char} {span : Span} : isSymbolChar c = false →
      AtFault secs ⟨.symbol c, span⟩ (.invalidSymbol ⟨c⟩)
  /-- The letter stands for no action. -/
  | letter {c : Char} {span : Span} : c ∉ ['R', 'L', 'Y', 'N'] →
      AtFault secs ⟨.letter c, span⟩ (.invalidAction ⟨c⟩)
  /-- The first character of the tape that is no symbol. -/
  | tape {cells : List Char} {c : Char} {span : Span} :
      cells.find? (fun c ↦ !isSymbolChar c) = some c →
      AtFault secs ⟨.tape cells, span⟩ (.invalidSymbol ⟨c⟩)
  /-- The head position is beyond the least. -/
  | headTooSmall {t : PositionText} {span : Span} :
      Text.signed t.negative t.digits < minPosition →
      AtFault secs ⟨.position t, span⟩ .headTooSmall
  /-- The head position is beyond the greatest. -/
  | headTooLarge {t : PositionText} {span : Span} :
      maxPosition < Text.signed t.negative t.digits →
      AtFault secs ⟨.position t, span⟩ .headTooLarge

/-- A part is at fault in one way. -/
theorem AtFault.unique {secs : List (Located Section)} {p : Located Part} {fault fault' : Fault}
    (h : AtFault secs p fault) (h' : AtFault secs p fault') : fault = fault' := by
  have hleast : minPosition ≤ maxPosition := by decide
  cases h with
  | tape hc =>
    cases h' with
    | tape hc' => rw [Option.some.inj (hc.symm.trans hc')]
  | headTooSmall h =>
    cases h' with
    | headTooSmall _ => rfl
    | headTooLarge h' => omega
  | headTooLarge h =>
    cases h' with
    | headTooSmall h' => omega
    | headTooLarge _ => rfl
  | _ => cases h'; rfl

/-- No part of the list is at fault. -/
def Sound (secs : List (Located Section)) (ps : List (Located Part)) : Prop :=
  ∀ p ∈ ps, ∀ fault, ¬AtFault secs p fault

/-- The parts of a list are sound and the value that is read of them has the property, or the first
of them that is at fault is refused. -/
def Inspects (secs : List (Located Section)) (ps : List (Located Part)) (V : α → Prop) :
    Except Error α → Prop
  | .ok a => Sound secs ps ∧ V a
  | .error e => ∃ before p after fault, ps = before ++ p :: after ∧ Sound secs before ∧
      AtFault secs p fault ∧ e = .faulty fault p.span

variable {secs : List (Located Section)} {ps qs : List (Located Part)} {p : Located Part}
  {fault : Fault} {V : α → Prop} {W : β → Prop} {x : Except Error α}

namespace Inspects

/-- Without parts the value counts. -/
theorem ok {a : α} (h : V a) : Inspects secs [] V (.ok a) :=
  ⟨fun _ hp ↦ absurd hp List.not_mem_nil, h⟩

/-- A sound part is accepted. -/
theorem sound {a : α} (hp : ∀ fault, ¬AtFault secs p fault) (h : V a) :
    Inspects secs [p] V (.ok a) :=
  ⟨fun _ hq ↦ List.mem_singleton.mp hq ▸ hp, h⟩

/-- A part at fault is refused, whatever follows it. -/
theorem refused (hp : AtFault secs p fault) :
    Inspects secs (p :: ps) V (.error (.faulty fault p.span)) :=
  ⟨[], p, ps, fault, rfl, fun _ hq ↦ absurd hq List.not_mem_nil, hp, rfl⟩

/-- Values have every property that follows from one that they have. -/
theorem mono (h : Inspects secs ps V x) {V' : α → Prop} (hV : ∀ a, V a → V' a) :
    Inspects secs ps V' x := by
  cases x with
  | error e => exact h
  | ok a => exact ⟨h.1, hV a h.2⟩

/-- Of two readers the second goes on behind the parts of the first. -/
theorem bind (h : Inspects secs ps V x) {f : α → Except Error β}
    (hf : ∀ a, V a → Inspects secs qs W (f a)) : Inspects secs (ps ++ qs) W (x >>= f) := by
  cases x with
  | error e =>
    obtain ⟨before, p, after, fault, rfl, hbefore, hp, rfl⟩ := h
    exact ⟨before, p, after ++ qs, fault, by simp, hbefore, hp, rfl⟩
  | ok a =>
    obtain ⟨hsound, hv⟩ := h
    have hrest := hf a hv
    rw [ok_bind]
    cases hb : f a with
    | error e =>
      rw [hb] at hrest
      obtain ⟨before, p, after, fault, rfl, hbefore, hp, rfl⟩ := hrest
      refine ⟨ps ++ before, p, after, fault, by simp, fun q hq ↦ ?_, hp, rfl⟩
      exact (List.mem_append.mp hq).elim (hsound q) (hbefore q)
    | ok b =>
      rw [hb] at hrest
      exact ⟨fun q hq ↦ (List.mem_append.mp hq).elim (hsound q) (hrest.1 q), hrest.2⟩

/-- Another value of the same parts. -/
theorem map (h : Inspects secs ps V x) {f : α → β} (hf : ∀ a, V a → W (f a)) :
    Inspects secs ps W (f <$> x) := by
  cases x with
  | error e => exact h
  | ok a => exact ⟨h.1, hf a h.2⟩

/-- A sound part in front is passed over. -/
theorem cons (hp : ∀ fault, ¬AtFault secs p fault) (h : Inspects secs ps V x) :
    Inspects secs (p :: ps) V x :=
  (sound (V := fun _ : Unit ↦ True) (a := ()) hp trivial).bind fun _ _ ↦ h

/-- The members of a list are read one after another. -/
theorem mapM {parts : α → List (Located Part)} {R : α → β → Prop} {f : α → Except Error β}
    (h : ∀ a, Inspects secs (parts a) (R a) (f a)) (as : List α) :
    Inspects secs (as.flatMap parts) (List.Forall₂ R as) (as.mapM f) := by
  induction as with
  | nil => exact ok .nil
  | cons a as ih =>
    rw [List.mapM_cons, List.flatMap_cons]
    refine (h a).bind fun b hb ↦ ?_
    rw [← List.append_nil (as.flatMap parts)]
    exact ih.bind fun bs hbs ↦ ok (.cons hb hbs)

end Inspects

/-! ### Readers of parts -/

theorem inspects_readCount (d : Located Digits) :
    Inspects secs [partAt .number d] (· = Text.ofDigits d.value) (readCount d) := by
  rw [readCount, Text.count?]
  by_cases h : Text.ofDigits d.value ≤ maxCount
  · rw [if_pos h]
    refine .sound ?_ rfl
    rintro _ ⟨⟩
    omega
  · rw [if_neg h]
    exact .refused (.number (by omega))

theorem inspects_readState (d : Located Digits) :
    Inspects secs [partAt .number d] (· = ⟨Text.ofDigits d.value⟩) (readState d) :=
  (inspects_readCount d).map fun n hn ↦ by rw [hn]

theorem inspects_readSymbol (c : Located Char) :
    Inspects secs [partAt .symbol c] (·.char = c.value) (readSymbol c) := by
  rw [readSymbol, Symbol.ofChar]
  by_cases h : isSymbolChar c.value = true
  · rw [dif_pos h]
    refine .sound ?_ rfl
    rintro _ ⟨⟩
    simp_all
  · rw [dif_neg h]
    exact .refused (.symbol (by simpa using h))

theorem inspects_readAction (c : Located Char) :
    Inspects secs [partAt .letter c] (·.code = c.value) (readAction c) := by
  by_cases h : c.value ∈ ['R', 'L', 'Y', 'N']
  · obtain ⟨a, ha⟩ : ∃ a : Action, a.code = c.value := by
      simp only [List.mem_cons, List.not_mem_nil, or_false] at h
      rcases h with h | h | h | h
      · exact ⟨.moveRight, h.symm⟩
      · exact ⟨.moveLeft, h.symm⟩
      · exact ⟨.accept, h.symm⟩
      · exact ⟨.reject, h.symm⟩
    have hcode : Action.ofCode c.value = .ok a := by rw [← ha, Action.ofCode_code]
    rw [readAction, hcode]
    refine .sound ?_ ha
    rintro _ ⟨⟩
    contradiction
  · have hcode : Action.ofCode c.value = .error ⟨c.value⟩ := by
      simp only [List.mem_cons, List.not_mem_nil, or_false, not_or] at h
      rw [Action.ofCode, if_neg h.1, if_neg h.2.1, if_neg h.2.2.1, if_neg h.2.2.2]
    rw [readAction, hcode]
    exact .refused (.letter h)

theorem inspects_readTape (t : Located (List Char)) :
    Inspects secs [partAt .tape t] (·.toList.map Symbol.char = t.value) (readTape t) := by
  rcases Symbol.ofChars_cases t.value with
    ⟨l, hl, hread⟩ | ⟨before, c, after, hcells, hbefore, hc, herror⟩
  · rw [readTape, Tape.ofChars, hread]
    refine .sound ?_ hl.symm
    rintro _ ⟨⟩
    next c hfind =>
    rw [hl] at hfind
    obtain ⟨s, -, rfl⟩ := List.mem_map.mp (List.mem_of_find?_eq_some hfind)
    simpa [s.valid] using List.find?_some hfind
  · have hfind : t.value.find? (fun c ↦ !isSymbolChar c) = some c := by
      rw [hcells, List.find?_append, List.find?_eq_none.mpr fun b hb ↦ by simp [hbefore b hb]]
      simp [hc]
    rw [readTape, Tape.ofChars, herror]
    exact .refused (.tape hfind)

theorem inspects_readPosition (t : Located PositionText) :
    Inspects secs [partAt .position t] (· = Text.signed t.value.negative t.value.digits)
      (readPosition t) := by
  simp only [readPosition]
  split
  · next h => exact .refused (.headTooSmall h)
  · next hleast =>
    split
    · next h => exact .refused (.headTooLarge h)
    · next hgreatest =>
      refine .sound ?_ rfl
      rintro _ ⟨⟩ <;> contradiction

/-! ### Rules and inputs -/

/-- The text shows the rule, at the place of the rule. -/
structure ShowsRule (t : Located RuleText) (r : Located Rule) : Prop where
  state : r.value.trigger.state = ⟨Text.ofDigits t.value.state.value⟩
  symbol : r.value.trigger.symbol.char = t.value.symbol.value
  next : r.value.transition.next = ⟨Text.ofDigits t.value.next.value⟩
  write : r.value.transition.write.char = t.value.write.value
  action : r.value.transition.action.code = t.value.action.value
  span : r.span = t.span

/-- The text shows the input. -/
structure ShowsRun (t : RunText) (r : Run) : Prop where
  tape : r.tape.toList.map Symbol.char = t.tape.value
  head : r.head = Text.signed t.position.value.negative t.position.value.digits

theorem ShowsRule.unique {t : Located RuleText} {r r' : Located Rule} (h : ShowsRule t r)
    (h' : ShowsRule t r') : r = r' := by
  have hsymbol := Symbol.ext (h.symbol.trans h'.symbol.symm)
  have hwrite := Symbol.ext (h.write.trans h'.write.symm)
  have haction := Action.ofCode_eq_ok_iff.mpr (h.action.trans h'.action.symm)
  rw [Action.ofCode_code] at haction
  obtain ⟨⟨⟨state, symbol⟩, next, write, action⟩, span⟩ := r
  obtain ⟨⟨⟨state', symbol'⟩, next', write', action'⟩, span'⟩ := r'
  simp only [Located.mk.injEq, Rule.mk.injEq, Trigger.mk.injEq, Transition.mk.injEq]
  exact ⟨⟨⟨h.state.trans h'.state.symm, hsymbol⟩, h.next.trans h'.next.symm, hwrite,
    Except.ok.inj haction⟩, h.span.trans h'.span.symm⟩

theorem ShowsRun.unique {t : RunText} {r r' : Run} (h : ShowsRun t r) (h' : ShowsRun t r') :
    r = r' := by
  have htape : r.tape.toList.map Symbol.char = r'.tape.toList.map Symbol.char :=
    h.tape.trans h'.tape.symm
  have hcells := Tape.ext_toList ((List.map_inj_right fun _ _ ↦ Symbol.ext).mp htape)
  cases r
  cases r'
  rw [Run.mk.injEq]
  exact ⟨hcells, h.head.trans h'.head.symm⟩

theorem inspects_readRule (t : Located RuleText) :
    Inspects secs t.value.parts (ShowsRule t) (readRule t) :=
  (inspects_readState t.value.state).bind fun _ hstate ↦
    (inspects_readSymbol t.value.symbol).bind fun _ hsymbol ↦
      (inspects_readState t.value.next).bind fun _ hnext ↦
        (inspects_readSymbol t.value.write).bind fun _ hwrite ↦
          (inspects_readAction t.value.action).bind fun _ haction ↦
            .ok ⟨hstate, hsymbol, hnext, hwrite, haction, rfl⟩

theorem inspects_readRun (t : RunText) : Inspects secs t.parts (ShowsRun t) (readRun t) :=
  (inspects_readTape t.tape).bind fun _ htape ↦
    (inspects_readPosition t.position).bind fun _ hhead ↦ .ok ⟨htape, hhead⟩

/-! ### Sections -/

/-- The draft holds what the section shows. -/
def Section.HeldBy : Section → Draft → Prop
  | .name text, d => d.name = some (String.ofList (Text.trim text))
  | .mode m, d => d.mode = some m
  | .states count, d => d.states = some (Text.ofDigits count.value)
  | .start state, d => d.start = some ⟨Text.ofDigits state.value⟩
  | .alphabet cs, d =>
    ∃ symbols, d.alphabet = some symbols ∧ List.Forall₂ (fun c s ↦ s.char = c.value) cs symbols
  | .transitions ts, d => ∃ rules, d.rules = some rules ∧ List.Forall₂ ShowsRule ts rules
  | .runs ts, d => ∃ rs, d.runs = some rs ∧ List.Forall₂ ShowsRun ts rs

namespace Draft

/-- The drafts hold the same of this kind. -/
def SameAt (d d' : Draft) : SectionKind → Prop
  | .name => d.name = d'.name
  | .mode => d.mode = d'.mode
  | .states => d.states = d'.states
  | .start => d.start = d'.start
  | .alphabet => d.alphabet = d'.alphabet
  | .transitions => d.rules = d'.rules
  | .runs => d.runs = d'.runs

variable {d d' : Draft} {s s' : Section} {k : SectionKind}

theorem SameAt.has_eq (h : d.SameAt d' k) : d.has k = d'.has k := by
  cases k <;> exact congrArg Option.isSome h

theorem SameAt.heldBy (h : d.SameAt d' s.kind) (hd : s.HeldBy d) : s.HeldBy d' := by
  cases s <;> simp only [Section.HeldBy] at hd ⊢ <;> rwa [← show _ = _ from h]

theorem has_of_heldBy (h : s.HeldBy d) : d.has s.kind = true := by
  cases s with
  | name | mode | states | start => exact Option.isSome_iff_exists.mpr ⟨_, h⟩
  | alphabet | transitions | runs =>
    obtain ⟨v, hv, -⟩ := h
    exact Option.isSome_iff_exists.mpr ⟨v, hv⟩

/-- Drafts that hold what a section shows hold the same of its kind. -/
theorem sameAt_of_heldBy (h : s.HeldBy d) (h' : s.HeldBy d') : d.SameAt d' s.kind := by
  cases s with
  | name | mode | states | start => exact h.trans h'.symm
  | alphabet cs =>
    obtain ⟨symbols, hd, hs⟩ := h
    obtain ⟨symbols', hd', hs'⟩ := h'
    have hunique : Relator.RightUnique fun (c : Located Char) (s : Symbol) ↦ s.char = c.value :=
      fun _ _ _ h h' ↦ Symbol.ext (h.trans h'.symm)
    exact hd.trans (List.right_unique_forall₂' hunique hs hs' ▸ hd'.symm)
  | transitions ts =>
    obtain ⟨rules, hd, hr⟩ := h
    obtain ⟨rules', hd', hr'⟩ := h'
    have hunique : Relator.RightUnique ShowsRule := fun _ _ _ ↦ ShowsRule.unique
    exact hd.trans (List.right_unique_forall₂' hunique hr hr' ▸ hd'.symm)
  | runs ts =>
    obtain ⟨rs, hd, hr⟩ := h
    obtain ⟨rs', hd', hr'⟩ := h'
    have hunique : Relator.RightUnique ShowsRun := fun _ _ _ ↦ ShowsRun.unique
    exact hd.trans (List.right_unique_forall₂' hunique hr hr' ▸ hd'.symm)

/-- The second draft is the first with what a section shows. -/
structure Hears (d d' : Draft) (s : Section) : Prop where
  held : s.HeldBy d'
  others : ∀ k, k ≠ s.kind → d.SameAt d' k

/-- A draft hears a section, or is refused for the first part of it that is at fault. -/
theorem inspects_say (d : Draft) (s : Section) :
    Inspects secs s.parts (fun d' ↦ d.Hears d' s) (d.say s) := by
  cases s with
  | name text =>
    refine .ok ⟨?_, fun k hk ↦ ?_⟩
    · rw [Section.HeldBy]
    · cases k <;> simp_all [SameAt, Section.kind]
  | mode m =>
    refine .ok ⟨?_, fun k hk ↦ ?_⟩
    · rw [Section.HeldBy]
    · cases k <;> simp_all [SameAt, Section.kind]
  | states count =>
    refine (inspects_readCount count).map fun n hn ↦ ⟨?_, fun k hk ↦ ?_⟩
    · rw [Section.HeldBy, hn]
    · cases k <;> simp_all [SameAt, Section.kind]
  | start state =>
    refine (inspects_readState state).map fun n hn ↦ ⟨?_, fun k hk ↦ ?_⟩
    · rw [Section.HeldBy, hn]
    · cases k <;> simp_all [SameAt, Section.kind]
  | alphabet cs =>
    refine (Inspects.mapM inspects_readSymbol cs).map fun v hv ↦ ⟨⟨v, rfl, hv⟩, fun k hk ↦ ?_⟩
    cases k <;> simp_all [SameAt, Section.kind]
  | transitions ts =>
    refine (Inspects.mapM inspects_readRule ts).map fun v hv ↦ ⟨⟨v, rfl, hv⟩, fun k hk ↦ ?_⟩
    cases k <;> simp_all [SameAt, Section.kind]
  | runs ts =>
    refine (Inspects.mapM inspects_readRun ts).map fun v hv ↦ ⟨⟨v, rfl, hv⟩, fun k hk ↦ ?_⟩
    cases k <;> simp_all [SameAt, Section.kind]

/-! ### Files -/

variable {front back : List (Located Section)} {x : Located Section}

/-- The draft holds what the sections show, and nothing else. -/
structure Gathers (d : Draft) (secs : List (Located Section)) : Prop where
  held : ∀ s ∈ secs, s.value.HeldBy d
  heard : ∀ k, d.has k = true → ∃ s ∈ secs, s.value.kind = k

/-- The empty draft gathers no sections. -/
theorem gathers_empty : empty.Gathers [] where
  held _ hs := absurd hs List.not_mem_nil
  heard k hk := by cases k <;> cases hk

/-- A draft that hears a section of a new kind gathers it. -/
theorem Gathers.hears (h : d.Gathers front) (hd : d.Hears d' x.value)
    (hnew : d.has x.value.kind = false) : d'.Gathers (front ++ [x]) := by
  refine ⟨fun s hs ↦ ?_, fun k hk ↦ ?_⟩
  · rcases List.mem_append.mp hs with hs | hs
    · have hne : s.value.kind ≠ x.value.kind := by
        intro heq
        rw [← heq, has_of_heldBy (h.held s hs)] at hnew
        cases hnew
      exact (hd.others _ hne).heldBy (h.held s hs)
    · rw [List.mem_singleton.mp hs]
      exact hd.held
  · by_cases hx : k = x.value.kind
    · exact ⟨x, List.mem_append_right _ (List.mem_singleton_self x), hx.symm⟩
    · rw [← (hd.others k hx).has_eq] at hk
      obtain ⟨s, hs, hks⟩ := h.heard k hk
      exact ⟨s, List.mem_append_left _ hs, hks⟩

/-- Sections are gathered in one draft only. -/
theorem Gathers.unique (h : d.Gathers secs) (h' : d'.Gathers secs) : d = d' := by
  have hsame : ∀ k, d.SameAt d' k := by
    intro k
    by_cases hk : d.has k = true ∨ d'.has k = true
    · obtain ⟨s, hs, rfl⟩ := hk.elim (h.heard k) (h'.heard k)
      exact sameAt_of_heldBy (h.held s hs) (h'.held s hs)
    · cases k <;> simp_all [has, SameAt]
  cases d
  cases d'
  rw [mk.injEq]
  exact ⟨hsame .name, hsame .mode, hsame .states, hsame .start, hsame .alphabet,
    hsame .transitions, hsame .runs⟩

/-- A section is added to the sections before it, or is refused for the first part of it that is at
fault, which is its heading if a section of its kind is among them. -/
theorem inspects_add
    (hasc : (front ++ x :: back).Pairwise fun s t ↦ s.span.start < t.span.start)
    (hd : d.Gathers front) :
    Inspects (front ++ x :: back) (headedParts x) (·.Gathers (front ++ [x])) (d.add x) := by
  obtain ⟨-, hback, hbefore⟩ := List.pairwise_append.mp hasc
  rw [add]
  cases hhas : d.has x.value.kind with
  | true =>
    obtain ⟨s, hs, hkind⟩ := hd.heard _ hhas
    exact .refused (p := partAt (.heading ∘ Section.kind) x)
      (.heading (List.mem_append_left _ hs) hkind (hbefore s hs x List.mem_cons_self))
  | false =>
    refine .cons ?_ ((inspects_say d x.value).mono fun d' hd' ↦ hd.hears hd' hhas)
    intro fault hfault
    cases hfault with
    | @heading s _ _ hs hkind hlt =>
      -- What begins further in front stands before this section, and the draft has its kind.
      rcases List.mem_append.mp hs with hs | hs
      · rw [← hkind, has_of_heldBy (hd.held s hs)] at hhas
        cases hhas
      · rcases List.mem_cons.mp hs with rfl | hs
        · exact Nat.lt_irrefl _ hlt
        · exact Nat.lt_asymm hlt ((List.pairwise_cons.mp hback).1 s hs)

/-- The sections behind others are gathered with them, or the first part at fault is refused. -/
theorem inspects_foldlM_add
    (hasc : (front ++ back).Pairwise fun s t ↦ s.span.start < t.span.start)
    (hd : d.Gathers front) :
    Inspects (front ++ back) (partsOf back) (·.Gathers (front ++ back)) (back.foldlM add d) := by
  -- The sections in front grow; the whole file, in which headings are looked for, stays the same.
  induction back generalizing front d with
  | nil => exact .ok (by rwa [List.append_nil])
  | cons x back ih =>
    rw [List.foldlM_cons]
    refine (inspects_add hasc hd).bind fun d' hd' ↦ ?_
    rw [List.append_cons] at hasc ⊢
    exact ih hasc hd'

/-- The draft of a file gathers its sections, or the file is refused for the first of its parts that
is at fault. -/
theorem inspects_ofSections
    (hasc : (partsOf secs).Pairwise fun p q ↦ p.span.start < q.span.start) :
    Inspects secs (partsOf secs) (·.Gathers secs) (ofSections secs) := by
  have hheadings : (secs.map (partAt (.heading ∘ Section.kind))).Sublist (partsOf secs) := by
    rw [List.map_eq_flatMap]
    exact List.Sublist.flatMap_right secs fun s _ ↦ (List.nil_sublist _).cons_cons _
  have hsections := hasc.sublist hheadings
  rw [List.pairwise_map] at hsections
  have hread : Inspects ([] ++ secs) (partsOf secs) (·.Gathers ([] ++ secs)) (ofSections secs) :=
    inspects_foldlM_add hsections gathers_empty
  exact hread

end Draft

end TapeMachine.Definition
