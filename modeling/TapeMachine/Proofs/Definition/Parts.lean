import TapeMachine.Definition
import TapeMachine.Proofs.Peg.Ascent

/-!
# Parts of a file

What is given a meaning in a definition file, part by part: the heading of a section, which stands
for the section as a whole, and behind it the numbers, symbols, letters, tapes and head positions in
the section. They are listed as they stand in the file, each behind the one before it
(`ascends_file`).
-/

namespace TapeMachine.Definition

open Peg (Ascends)

variable {α β : Type}

/-! ### Parts -/

/-- A part of a file, as it is written. -/
inductive Part where
  | heading (kind : SectionKind)
  | number (digits : Digits)
  | symbol (c : Char)
  | letter (c : Char)
  | tape (cells : List Char)
  | position (text : PositionText)

/-- What is read at a place, as a part. -/
def partAt (part : α → Part) (x : Located α) : Located Part := ⟨part x.value, x.span⟩

/-- The parts of a rule. -/
def RuleText.parts (r : RuleText) : List (Located Part) :=
  [partAt .number r.state, partAt .symbol r.symbol, partAt .number r.next, partAt .symbol r.write,
    partAt .letter r.action]

/-- The parts of an input. -/
def RunText.parts (r : RunText) : List (Located Part) :=
  [partAt .tape r.tape, partAt .position r.position]

/-- The parts of a section behind its keyword. -/
def Section.parts : Section → List (Located Part)
  | .name _ | .mode _ => []
  | .states count => [partAt .number count]
  | .start state => [partAt .number state]
  | .alphabet symbols => symbols.flatMap fun c ↦ [partAt .symbol c]
  | .transitions rules => rules.flatMap fun r ↦ r.value.parts
  | .runs rs => rs.flatMap RunText.parts

/-- The parts of a section with its heading. -/
def headedParts (s : Located Section) : List (Located Part) :=
  partAt (.heading ∘ Section.kind) s :: s.value.parts

/-- The parts of all sections, in the order of the file. -/
def partsOf (secs : List (Located Section)) : List (Located Part) := secs.flatMap headedParts

/-- The rules of a section, as they are written. -/
def Section.ruleTexts : Section → List (Located RuleText)
  | .transitions rules => rules
  | .name _ | .mode _ | .states _ | .start _ | .alphabet _ | .runs _ => []

/-- The rules of all sections, in the order of the file. -/
def ruleTextsOf (secs : List (Located Section)) : List (Located RuleText) :=
  secs.flatMap fun s ↦ s.value.ruleTexts

/-! ### Words and lines -/

section

variable {ι : Type} {e : Grammar.Expr α} {f : Grammar.Expr β} {ps : α → List (Located ι)}
  {qs : β → List (Located ι)}

private theorem ascends_after (s : String) (h : e.Ascends ps) : (Grammar.after s e).Ascends ps :=
  .right _ (.right _ h)

private theorem ascends_pair (h : e.Ascends ps) (h' : f.Ascends qs) :
    (Grammar.pair e f).Ascends fun v ↦ ps v.1 ++ qs v.2 :=
  h.seq (.right _ h')

private theorem ascends_list (h : e.Ascends ps) :
    (Grammar.list e).Ascends fun as ↦ as.flatMap ps := by
  refine (h.seq (Ascends.right Grammar.gap h).many).optional.map ?_
  rintro (_ | ⟨a, as⟩)
  · rfl
  · simp

private theorem ascends_onLine (h : f.Ascends qs) :
    (Grammar.pair Grammar.breaks f).Ascends fun v ↦ qs v.2 :=
  Ascends.seq .nothing (.right _ h)

/-- The parts of a file are those of its sections, one section behind the other. -/
private theorem ascends_file_of {qs : Located Section → List (Located ι)}
    (h : Grammar.anySection.Ascends qs) : Grammar.file.Ascends fun secs ↦ secs.flatMap qs := by
  have hblock : ((Grammar.pair Grammar.anySection (Grammar.list Grammar.lineBreak)).map
      Prod.fst).Ascends qs :=
    h.left _
  exact ((Ascends.right Grammar.gap <| ascends_pair .nothing <|
    ascends_pair (ascends_list hblock) .nothing).rule).map fun _ ↦ by simp

end

private theorem ascends_count : Grammar.count.Ascends fun d ↦ [partAt .number d] :=
  .located rfl _

private theorem ascends_state : Grammar.state.Ascends fun d ↦ [partAt .number d] :=
  (Ascends.right _ ascends_count).rule.map fun _ ↦ rfl

private theorem ascends_symbol : Grammar.symbol.Ascends fun c ↦ [partAt .symbol c] :=
  .located rfl _

private theorem ascends_tape : Grammar.tape.Ascends fun t ↦ [partAt .tape t] :=
  (Ascends.right _ (.located_left rfl _)).rule.map fun _ ↦ rfl

/-- The parts of a rule stand in their order. -/
theorem ascends_transition : Grammar.transition.Ascends fun r ↦ r.value.parts := by
  have haction : (Grammar.before Grammar.action ")").Ascends fun c ↦ [partAt .letter c] :=
    .left (.located rfl _) _
  exact ((ascends_after "(" <| ascends_pair ascends_state <| ascends_after "," <|
    ascends_pair ascends_symbol <| ascends_after ")" <| ascends_after "->" <| ascends_after "(" <|
    ascends_pair ascends_state <| ascends_after "," <| ascends_pair ascends_symbol <|
    ascends_after "," haction).map fun _ ↦ rfl).rule

/-- The parts of an input stand in their order. -/
theorem ascends_run : Grammar.run.Ascends fun r ↦ r.value.parts :=
  ((ascends_pair ascends_tape (ascends_after "@" (.located rfl _))).map fun _ ↦ rfl).rule

/-! ### Sections -/

/-- The parts of a section stand behind its keyword, in their order. -/
theorem ascends_anySection : Grammar.anySection.Ascends headedParts := by
  have hsection : ∀ {α : Type} {n : RuleName} {s : String} {e : Grammar.Expr α}
      {ps : α → List (Located Part)} {g : α → Section}, s.length ≠ 0 → e.Ascends ps →
      (∀ a, (g a).parts = ps a) → (Peg.rule n ((Grammar.after s e).map g)).Ascends headedParts :=
    fun hs he hg ↦ .headed (by simp [Peg.reads, hs]) (.right _ he) _ hg
  refine .choice ?_ <| .choice ?_ <| .choice ?_ <| .choice ?_ <| .choice ?_ <| .choice ?_ ?_
  · exact hsection (by decide) .nothing fun _ ↦ rfl
  · exact hsection (by decide) .nothing fun _ ↦ rfl
  · exact hsection (by decide) ascends_count fun _ ↦ rfl
  · exact hsection (by decide) ascends_state fun _ ↦ rfl
  · exact hsection (by decide) (ascends_pair ascends_symbol
      (ascends_list (ascends_after "," ascends_symbol))) fun _ ↦ rfl
  · exact hsection (by decide) (ascends_list ((ascends_onLine ascends_transition).map
      fun _ ↦ rfl)) fun _ ↦ rfl
  · exact hsection (by decide) (ascends_list ((ascends_onLine ascends_run).map
      fun _ ↦ rfl)) fun _ ↦ rfl

/-- The parts of a file begin one behind the other. -/
theorem ascends_file : Grammar.file.Ascends partsOf := ascends_file_of ascends_anySection

/-- The rules of a file begin one behind the other. -/
theorem ascends_ruleTexts : Grammar.file.Ascends ruleTextsOf := by
  apply ascends_file_of
  have hsection : ∀ {α : Type} {n : RuleName} {s : String} {e : Grammar.Expr α}
      {ps : α → List (Located RuleText)} {g : α → Section}, e.Ascends ps →
      (∀ a, (g a).ruleTexts = ps a) →
      (Peg.rule n ((Grammar.after s e).map g)).Ascends fun x ↦ x.value.ruleTexts :=
    fun he hg ↦ Ascends.rule ((ascends_after _ he).map hg)
  refine .choice ?_ <| .choice ?_ <| .choice ?_ <| .choice ?_ <| .choice ?_ <| .choice ?_ ?_
  · exact hsection .nothing fun _ ↦ rfl
  · exact hsection .nothing fun _ ↦ rfl
  · exact hsection .nothing fun _ ↦ rfl
  · exact hsection .nothing fun _ ↦ rfl
  · exact hsection .nothing fun _ ↦ rfl
  · have hrule : Grammar.transition.Ascends fun r ↦ [r] := .located rfl id
    have hline : ((Grammar.pair Grammar.breaks Grammar.transition).map Prod.snd).Ascends
        fun r ↦ [r] :=
      (ascends_onLine hrule).map fun _ ↦ rfl
    exact hsection (ascends_list hline) fun rules ↦ (List.flatMap_singleton' rules).symm
  · exact hsection .nothing fun _ ↦ rfl

end TapeMachine.Definition
