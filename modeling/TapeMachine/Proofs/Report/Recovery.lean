import TapeMachine.Proofs.SortedMap
import TapeMachine.Proofs.Text.Numeral
import TapeMachine.Report

/-!
# Reports lose nothing

Two machines with the same report are equal, and so are two ends of a run with the same summary
(`Report.texts_injective`). Symbols may imitate every delimiter of a report, but none of them is
blank. So a report is taken apart from its beginning: a line goes as far as the next line feed, a
number as far as the next character that is no digit, and a tape with the comma behind it as far as
the next blank.
-/

namespace TapeMachine

open Text

variable {u v : List Char}

/-! ### Parts of lines -/

/-- A symbol is no blank character. -/
theorem Symbol.char_ne_of_isBlank {c : Char} (s : Symbol) (hc : isBlank c = true) : s.char ≠ c := by
  rintro rfl
  have hvalid := s.valid
  simp [isSymbolChar, hc] at hvalid

/-- A symbol is known from its text. -/
theorem Symbol.text_append_inj {s t : Symbol} (h : s.text.toList ++ u = t.text.toList ++ v) :
    s = t ∧ u = v := by
  simp only [Symbol.text, Char.toString_eq_singleton, String.toList_singleton, List.cons_append,
    List.nil_append, List.cons.injEq] at h
  exact ⟨Symbol.ext h.1, h.2⟩

/-- A state is known from its text, unless a digit comes next. -/
theorem State.text_append_inj {p q : State} (hu : StartsOutside Char.isDigit u)
    (hv : StartsOutside Char.isDigit v) (h : p.text.toList ++ u = q.text.toList ++ v) :
    p = q ∧ u = v := by
  simp only [State.text, String.toList_append, List.append_assoc] at h
  obtain ⟨hpq, huv⟩ := natural_append_inj hu hv (List.append_cancel_left h)
  exact ⟨(State.mk.injEq ..).mpr hpq, huv⟩

/-- An action is known from its letter. -/
theorem Action.text_append_inj {a b : Action} (h : a.text.toList ++ u = b.text.toList ++ v) :
    a = b ∧ u = v := by
  simp only [Action.text, Char.toString_eq_singleton, String.toList_singleton, List.cons_append,
    List.nil_append, List.cons.injEq] at h
  have hread := ofCode_code a
  rw [h.1, ofCode_code] at hread
  exact ⟨(Except.ok.inj hread).symm, h.2⟩

/-- A tape is known from its text and the comma behind it, if a blank comes next. -/
theorem Tape.text_append_inj {s t : Tape}
    (h : s.text.toList ++ ',' :: ' ' :: u = t.text.toList ++ ',' :: ' ' :: v) : s = t ∧ u = v := by
  have hvisible (t : Tape) : ∀ c ∈ t.toList.map Symbol.char ++ [','], isSymbolChar c = true := by
    intro c hc
    rcases List.mem_append.mp hc with hc | hc
    · obtain ⟨s, -, rfl⟩ := List.mem_map.mp hc
      exact s.valid
    · rw [List.mem_singleton.mp hc]
      rfl
  have hblank (w : List Char) : StartsOutside isSymbolChar (' ' :: w) := startsOutside_cons rfl
  have hsplit : (s.toList.map Symbol.char ++ [',']) ++ ' ' :: u =
      (t.toList.map Symbol.char ++ [',']) ++ ' ' :: v := by
    simpa [Tape.text] using h
  obtain ⟨hcells, hrest⟩ := (hblank u).append_inj (hblank v) (hvisible s) (hvisible t) hsplit
  have hst := (List.map_inj_right fun _ _ ↦ Symbol.ext).mp (List.append_cancel_right hcells)
  exact ⟨Tape.ext_toList hst, (List.cons.inj hrest).2⟩

/-- The seventh character of the text of a halt, which tells the kinds of halt apart. -/
private def Halt.mark : Halt → Char
  | accepted => 'a'
  | rejected => 'r'
  | undefined .. => 'n'
  | outOfBounds _ => '>'

private theorem Halt.toList_text_undefined (q : State) (s : Symbol) :
    (undefined q s).text.toList = "No transition defined for (".toList ++
      (q.text.toList ++ (" , ".toList ++ (s.text.toList ++ ")".toList))) := by
  have htext : (undefined q s).text =
      "No transition defined for (" ++ q.text ++ " , " ++ s.text ++ ")" := rfl
  simp only [htext, String.toList_append, List.append_assoc]

private theorem Halt.toList_text_outOfBounds (i : Int) :
    (outOfBounds i).text.toList = "HANG >> Head moved out of tape bounds (position ".toList ++
      ((integer i).toList ++ ")".toList) := by
  have htext : (outOfBounds i).text =
      "HANG >> Head moved out of tape bounds (position " ++ integer i ++ ")" := rfl
  simp only [htext, String.toList_append, List.append_assoc]

private theorem Halt.getElem?_text (h : Halt) (u : List Char) :
    (h.text.toList ++ u)[6]? = some h.mark := by
  cases h with
  | accepted => rfl
  | rejected => rfl
  | undefined q s =>
    rw [toList_text_undefined]
    rfl
  | outOfBounds i =>
    rw [toList_text_outOfBounds]
    rfl

/-- A halt is known from its text. -/
theorem Halt.text_append_inj {h k : Halt} (heq : h.text.toList ++ u = k.text.toList ++ v) :
    h = k ∧ u = v := by
  have hmark : h.mark = k.mark := by
    apply Option.some.inj
    rw [← h.getElem?_text u, heq, k.getElem?_text]
  cases h with
  | accepted =>
    cases k with
    | accepted => exact ⟨rfl, List.append_cancel_left heq⟩
    | _ => simp [mark] at hmark
  | rejected =>
    cases k with
    | rejected => exact ⟨rfl, List.append_cancel_left heq⟩
    | _ => simp [mark] at hmark
  | undefined p s =>
    cases k with
    | undefined q t =>
      simp only [toList_text_undefined, List.append_assoc] at heq
      have hspace (w : List Char) : StartsOutside Char.isDigit (" , ".toList ++ w) :=
        startsOutside_cons rfl
      obtain ⟨rfl, hsymbol⟩ :=
        State.text_append_inj (hspace _) (hspace _) (List.append_cancel_left heq)
      obtain ⟨rfl, hrest⟩ := Symbol.text_append_inj (List.append_cancel_left hsymbol)
      exact ⟨rfl, List.append_cancel_left hrest⟩
    | _ => simp [mark] at hmark
  | outOfBounds i =>
    cases k with
    | outOfBounds j =>
      simp only [toList_text_outOfBounds, List.append_assoc] at heq
      have hclose (w : List Char) : StartsOutside Char.isDigit (")".toList ++ w) :=
        startsOutside_cons rfl
      obtain ⟨rfl, hrest⟩ :=
        integer_append_inj (hclose _) (hclose _) (List.append_cancel_left heq)
      exact ⟨rfl, List.append_cancel_left hrest⟩
    | _ => simp [mark] at hmark

/-! ### Lines -/

namespace Report

/-- The summary, character by character. -/
private theorem toList_summary (o : Outcome) :
    (summary o).toList = "[".toList ++ (o.halt.text.toList ++ ("] State: ".toList ++
      (o.state.text.toList ++ (", Tape: ".toList ++ (o.tape.text.toList ++
        (',' :: ' ' :: ("Head Position: ".toList ++ ((integer o.head).toList ++
          (", Steps: ".toList ++ ((natural o.steps).toList ++ [])))))))))) := by
  have hhead : ", Head Position: ".toList = ',' :: ' ' :: "Head Position: ".toList := rfl
  simp only [summary, String.toList_append, hhead, List.append_assoc, List.cons_append,
    List.append_nil]

/-- Ends of runs with the same summary are equal. -/
theorem summary_injective : Function.Injective summary := by
  intro o o' h
  have htexts := congrArg String.toList h
  rw [toList_summary, toList_summary] at htexts
  have hbeforeTape (s : List Char) : StartsOutside Char.isDigit (", Tape: ".toList ++ s) :=
    startsOutside_cons rfl
  have hbeforeSteps (s : List Char) : StartsOutside Char.isDigit (", Steps: ".toList ++ s) :=
    startsOutside_cons rfl
  obtain ⟨hhalt, htexts⟩ := Halt.text_append_inj (List.append_cancel_left htexts)
  obtain ⟨hstate, htexts⟩ :=
    State.text_append_inj (hbeforeTape _) (hbeforeTape _) (List.append_cancel_left htexts)
  obtain ⟨htape, htexts⟩ := Tape.text_append_inj (List.append_cancel_left htexts)
  obtain ⟨hhead, htexts⟩ :=
    integer_append_inj (hbeforeSteps _) (hbeforeSteps _) (List.append_cancel_left htexts)
  obtain ⟨hsteps, -⟩ :=
    natural_append_inj startsOutside_nil startsOutside_nil (List.append_cancel_left htexts)
  exact (Outcome.mk.injEq ..).mpr ⟨hhalt, hstate, htape, hhead, hsteps⟩

/-- The line of a rule. -/
private def ruleLine (r : Rule) : String :=
  "(" ++ r.trigger.state.text ++ " , " ++ r.trigger.symbol.text ++ ") , " ++ r.transition.text

private theorem toList_ruleLine (r : Rule) :
    (ruleLine r).toList = "(".toList ++ (r.trigger.state.text.toList ++ (" , ".toList ++
      (r.trigger.symbol.text.toList ++ (") , (".toList ++ (r.transition.next.text.toList ++
        (" , ".toList ++ (r.transition.write.text.toList ++ (" , ".toList ++
          (r.transition.action.text.toList ++ ")".toList))))))))) := by
  have hclose : ") , (".toList = ") , ".toList ++ "(".toList := rfl
  simp only [ruleLine, Transition.text, String.toList_append, hclose, List.append_assoc]

/-- Rules with the same line are equal. -/
private theorem ruleLine_injective {r r' : Rule} (h : ruleLine r = ruleLine r') : r = r' := by
  have htexts := congrArg String.toList h
  rw [toList_ruleLine, toList_ruleLine] at htexts
  have hspace (s : List Char) : StartsOutside Char.isDigit (" , ".toList ++ s) :=
    startsOutside_cons rfl
  obtain ⟨hstate, htexts⟩ :=
    State.text_append_inj (hspace _) (hspace _) (List.append_cancel_left htexts)
  obtain ⟨hsymbol, htexts⟩ := Symbol.text_append_inj (List.append_cancel_left htexts)
  obtain ⟨hnext, htexts⟩ :=
    State.text_append_inj (hspace _) (hspace _) (List.append_cancel_left htexts)
  obtain ⟨hwrite, htexts⟩ := Symbol.text_append_inj (List.append_cancel_left htexts)
  obtain ⟨haction, -⟩ := Action.text_append_inj (List.append_cancel_left htexts)
  obtain ⟨⟨q, s⟩, ⟨p, w, a⟩⟩ := r
  obtain ⟨⟨q', s'⟩, ⟨p', w', a'⟩⟩ := r'
  simp only at hstate hsymbol hnext hwrite haction
  subst hstate hsymbol hnext hwrite haction
  rfl

/-- The characters of texts that are put together behind a first one, each with a blank before it.
-/
private theorem toList_foldl_blank {α : Type} (text : α → String) (l : List α) (s : String) :
    (l.foldl (fun acc a ↦ acc ++ " " ++ text a) s).toList =
      s.toList ++ l.flatMap fun a ↦ ' ' :: (text a).toList := by
  induction l generalizing s with
  | nil => simp
  | cons a l ih =>
    rw [List.foldl_cons, ih]
    simp [String.toList_append]

/-- Symbols are told from the line that lists them. -/
private theorem flatMap_symbols_injective {l l' : List Symbol}
    (h : (l.flatMap fun s ↦ ' ' :: s.text.toList) = l'.flatMap fun s ↦ ' ' :: s.text.toList) :
    l = l' := by
  induction l generalizing l' with
  | nil =>
    cases l' with
    | nil => rfl
    | cons s' l' => cases h
  | cons s l ih =>
    cases l' with
    | nil => cases h
    | cons s' l' =>
      simp only [List.flatMap_cons, List.cons_append] at h
      obtain ⟨rfl, hrest⟩ := Symbol.text_append_inj (List.cons.inj h).2
      rw [ih hrest]

/-! ### Texts of several lines -/

/-- No line ends inside a text. -/
private abbrev OneLine (s : String) : Prop := s.toList.all (· != '\n') = true

private theorem OneLine.append {s t : String} (hs : OneLine s) (ht : OneLine t) :
    OneLine (s ++ t) := by
  rw [OneLine, String.toList_append, List.all_append, hs, ht]
  rfl

private theorem oneLine_natural (n : Nat) : OneLine (natural n) := by
  refine List.all_eq_true.mpr fun c hc ↦ ?_
  rw [natural, String.toList_ofList] at hc
  have hdigit := isDigit_of_mem_digits hc
  rw [bne_iff_ne]
  rintro rfl
  cases hdigit

private theorem oneLine_state (q : State) : OneLine q.text :=
  OneLine.append (by decide) (oneLine_natural q.index)

private theorem oneLine_symbol (s : Symbol) : OneLine s.text := by
  refine List.all_eq_true.mpr fun c hc ↦ ?_
  rw [Symbol.text, Char.toString_eq_singleton, String.toList_singleton, List.mem_singleton] at hc
  rw [hc, bne_iff_ne]
  exact s.char_ne_of_isBlank rfl

private theorem oneLine_foldl_blank {α : Type} {text : α → String} (h : ∀ a, OneLine (text a))
    (l : List α) {s : String} (hs : OneLine s) :
    OneLine (l.foldl (fun acc a ↦ acc ++ " " ++ text a) s) := by
  induction l generalizing s with
  | nil => exact hs
  | cons a l ih => exact ih ((hs.append (by decide)).append (h a))

private theorem oneLine_ruleLine (r : Rule) : OneLine (ruleLine r) := by
  have haction (a : Action) : OneLine a.text := by
    cases a <;> decide
  have hopen : OneLine "(" := by decide
  have hcomma : OneLine " , " := by decide
  have hclose : OneLine ")" := by decide
  have htransition : OneLine r.transition.text :=
    (((((hopen.append (oneLine_state _)).append hcomma).append (oneLine_symbol _)).append
      hcomma).append (haction _)).append hclose
  exact ((((hopen.append (oneLine_state _)).append hcomma).append (oneLine_symbol _)).append
    (by decide)).append htransition

/-- Every line of a report is one line. -/
private theorem oneLine_of_mem_configuration {m : Machine} {l : String}
    (h : l ∈ configuration m) : OneLine l := by
  simp only [configuration, List.mem_append, List.mem_cons, List.not_mem_nil, or_false,
    List.mem_map] at h
  rcases h with ((rfl | rfl | rfl | rfl | rfl | rfl | rfl | rfl) | ⟨r, -, rfl⟩) | rfl
  · decide
  · decide
  · decide
  · exact OneLine.append (by decide) (oneLine_natural m.numStates)
  · exact oneLine_foldl_blank (fun i ↦ oneLine_state ⟨i⟩) _ (by decide)
  · exact OneLine.append (by decide) (oneLine_state m.start)
  · exact oneLine_foldl_blank oneLine_symbol _ (by decide)
  · decide
  · exact oneLine_ruleLine r
  · decide

/-- The characters of texts that are put together. -/
private theorem toList_join (between s : String) (ls : List String) :
    (join between (s :: ls)).toList =
      s.toList ++ ls.flatMap fun l ↦ between.toList ++ l.toList := by
  rw [join]
  induction ls generalizing s with
  | nil => simp
  | cons l ls ih =>
    rw [List.foldl_cons, ih]
    simp [String.toList_append]

/-- The first of several lines is found again. -/
private theorem first_line_unique {s s' : String} {ls ls' : List String} (hs : OneLine s)
    (hs' : OneLine s')
    (h : (s.toList ++ ls.flatMap fun l ↦ "\n".toList ++ l.toList) =
      s'.toList ++ ls'.flatMap fun l ↦ "\n".toList ++ l.toList) :
    s = s' ∧ (ls.flatMap fun l ↦ "\n".toList ++ l.toList) =
      ls'.flatMap fun l ↦ "\n".toList ++ l.toList := by
  have hstop (ls : List String) :
      StartsOutside (· != '\n') (ls.flatMap fun l ↦ "\n".toList ++ l.toList) := by
    cases ls with
    | nil => exact startsOutside_nil
    | cons l ls => exact startsOutside_cons rfl
  obtain ⟨hfirst, hrest⟩ :=
    (hstop ls).append_inj (hstop ls') (List.all_eq_true.mp hs) (List.all_eq_true.mp hs') h
  exact ⟨String.toList_inj.mp hfirst, hrest⟩

/-- Lines that are put together are found again. -/
private theorem lines_unique {s s' : String} {ls ls' : List String}
    (hs : ∀ l ∈ s :: ls, OneLine l) (hs' : ∀ l ∈ s' :: ls', OneLine l)
    (h : (s.toList ++ ls.flatMap fun l ↦ "\n".toList ++ l.toList) =
      s'.toList ++ ls'.flatMap fun l ↦ "\n".toList ++ l.toList) : s :: ls = s' :: ls' := by
  induction ls generalizing s s' ls' with
  | nil =>
    obtain ⟨rfl, hrest⟩ := first_line_unique (hs s List.mem_cons_self) (hs' s' List.mem_cons_self) h
    cases ls' with
    | nil => rfl
    | cons l' ls' => cases hrest
  | cons l ls ih =>
    obtain ⟨rfl, hrest⟩ := first_line_unique (hs s List.mem_cons_self) (hs' s' List.mem_cons_self) h
    cases ls' with
    | nil => cases hrest
    | cons l' ls' =>
      rw [ih (fun _ hl ↦ hs _ (List.mem_cons_of_mem _ hl))
        (fun _ hl ↦ hs' _ (List.mem_cons_of_mem _ hl)) (List.cons.inj hrest).2]

/-- Machines with the same report are equal. -/
theorem configurationText_injective : Function.Injective configurationText := by
  intro m m' h
  have htexts := congrArg String.toList h
  simp only [configurationText, configuration, List.cons_append, toList_join] at htexts
  have hlines : configuration m = configuration m' :=
    lines_unique (fun _ ↦ oneLine_of_mem_configuration) (fun _ ↦ oneLine_of_mem_configuration)
      htexts
  simp only [configuration, List.cons_append, List.nil_append, List.cons.injEq, true_and,
    List.append_cancel_right_eq] at hlines
  obtain ⟨hcountLine, -, hstartLine, halphabetLine, hruleLines⟩ := hlines
  have hcount : m.numStates = m'.numStates := by
    have hline := congrArg (fun s ↦ s.toList ++ []) hcountLine
    simp only [String.toList_append, List.append_assoc] at hline
    exact (natural_append_inj startsOutside_nil startsOutside_nil
      (List.append_cancel_left hline)).1
  have hstart : m.start = m'.start := by
    have hline := congrArg (fun s ↦ s.toList ++ []) hstartLine
    simp only [String.toList_append, List.append_assoc] at hline
    exact (State.text_append_inj startsOutside_nil startsOutside_nil
      (List.append_cancel_left hline)).1
  have halphabet : m.alphabet = m'.alphabet := by
    have hline := congrArg String.toList halphabetLine
    rw [toList_foldl_blank, toList_foldl_blank] at hline
    have hsymbols := flatMap_symbols_injective (List.append_cancel_left hline)
    rw [← SortedSet.ofList_toList m.alphabet, hsymbols, SortedSet.ofList_toList]
  have htable : m.table = m'.table := by
    have hrules := (List.map_inj_right fun _ _ ↦ ruleLine_injective).mp hruleLines
    rw [← Table.foldl_define_rules m.table, hrules, Table.foldl_define_rules]
  exact (Machine.mk.injEq ..).mpr ⟨hcount, hstart, halphabet, htable⟩

/-- Reports lose nothing: machines with the same report are equal, and so are ends of runs with the
same summary. -/
theorem texts_injective :
    Function.Injective configurationText ∧ Function.Injective summary :=
  ⟨configurationText_injective, summary_injective⟩

end Report

end TapeMachine
