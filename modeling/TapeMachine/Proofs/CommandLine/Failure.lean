import TapeMachine.CommandLine
import TapeMachine.Proofs.Catalogue.Entries
import TapeMachine.Proofs.CommandLine.Trace

/-!
# Failing before anything is done

The command line prints and runs as it goes on. What may fail comes first: the arguments are read,
the program is loaded and the tapes are read before anything is printed or run, and nothing behind
that fails (`run_performRuns`). So there are five ways in which a command ends (`Answer`), and if it
fails it has printed nothing and run nothing (`respond_fails_idle`).
-/

namespace TapeMachine

theorem Text.closed_append (a b : List String) :
    Text.closed (a ++ b) = Text.closed a ++ Text.closed b := by
  rw [← String.toList_inj, String.toList_append]
  simp only [toList_closed, List.flatMap_append]

namespace CommandLine

variable {o : Options} {s : Surroundings} {m : Machine}

/-! ### What may fail -/

/-- The text is a tape. -/
def IsTape (text : String) : Prop := ∀ c ∈ text.toList, isSymbolChar c = true

/-- The text is no tape, and `c` is the first character in it that is no symbol. -/
def RefusedFor (text : String) (c : Char) : Prop :=
  ∃ front back, text.toList = front ++ c :: back ∧ (∀ d ∈ front, isSymbolChar d = true) ∧
    isSymbolChar c = false

/-- Some of the texts are no tapes, and the first of these is refused for `c`. -/
def FirstRefusedFor (texts : List String) (c : Char) : Prop :=
  ∃ before text after, texts = before ++ text :: after ∧ (∀ t ∈ before, IsTape t) ∧
    RefusedFor text c

theorem FirstRefusedFor.cons {text : String} {texts : List String} {c : Char} (htext : IsTape text)
    (h : FirstRefusedFor texts c) : FirstRefusedFor (text :: texts) c := by
  obtain ⟨before, t, after, rfl, hbefore, hrefused⟩ := h
  exact ⟨text :: before, t, after, rfl, List.forall_mem_cons.mpr ⟨htext, hbefore⟩, hrefused⟩

theorem readRun_cases (head : Int) (text : String) :
    (IsTape text ∧ ∃ r, readRun head text = .ok r) ∨
      ∃ c, RefusedFor text c ∧ readRun head text = .error (.invalidSymbol ⟨c⟩) := by
  rcases Symbol.ofChars_cases text.toList with
    ⟨l, hl, hread⟩ | ⟨front, c, back, htext, hfront, hc, hread⟩
  · refine .inl ⟨?_, ⟨Tape.ofList l, head⟩, by rw [readRun, Tape.ofChars, hread]; rfl⟩
    intro d hd
    rw [hl] at hd
    obtain ⟨a, -, rfl⟩ := List.mem_map.mp hd
    exact a.valid
  · exact .inr ⟨c, ⟨front, back, htext, hfront, hc⟩, by rw [readRun, Tape.ofChars, hread]; rfl⟩

theorem mapM_readRun_cases (head : Int) (texts : List String) :
    ((∀ t ∈ texts, IsTape t) ∧ ∃ runs, texts.mapM (readRun head) = .ok runs) ∨
      ∃ c, FirstRefusedFor texts c ∧ texts.mapM (readRun head) = .error (.invalidSymbol ⟨c⟩) := by
  induction texts with
  | nil => exact .inl ⟨by simp, [], rfl⟩
  | cons text texts ih =>
    rw [List.mapM_cons]
    rcases readRun_cases head text with ⟨htext, r, hr⟩ | ⟨c, hrefused, hc⟩
    · rw [hr]
      rcases ih with ⟨hvalid, runs, hruns⟩ | ⟨c, hfirst, hc⟩
      · rw [hruns]
        exact .inl ⟨List.forall_mem_cons.mpr ⟨htext, hvalid⟩, r :: runs, rfl⟩
      · rw [hc]
        exact .inr ⟨c, hfirst.cons htext, rfl⟩
    · rw [hc]
      exact .inr ⟨c, ⟨[], text, texts, rfl, by simp, hrefused⟩, rfl⟩

/-- The tapes given as arguments are read, or the first of them that is none is refused. -/
theorem runsOf_cases (o : Options) (p : Program) :
    ((∀ t ∈ o.inputs, IsTape t) ∧ ∃ runs, runsOf o p = .ok runs) ∨
      ∃ c, FirstRefusedFor o.inputs c ∧ runsOf o p = .error (.invalidSymbol ⟨c⟩) := by
  unfold runsOf
  split
  · next hnone => exact .inl ⟨by simp [hnone], p.runs, rfl⟩
  · exact mapM_readRun_cases _ _

/-- A program that cannot be loaded ends the command line with the exit code 1. -/
theorem exit_of_programOf {f : Failure} (h : programOf o s = .error f) : f.exit = 1 := by
  have hmapped {ε α : Type} {x : Except ε α} {kind : ε → Failure} (hkind : ∀ e, (kind e).exit = 1)
      (hx : x.mapError kind = .error f) : f.exit = 1 := by
    cases x with
    | ok a => cases hx
    | error e =>
      cases hx
      exact hkind e
  unfold programOf at h
  split at h
  · exact hmapped (fun _ ↦ rfl) h
  · exact hmapped (fun _ ↦ rfl) h
  · split at h
    · cases h
      rfl
    · split at h
      · cases h
        rfl
      · exact hmapped (fun _ ↦ rfl) h

/-! ### What does not fail -/

namespace Work

variable {α β : Type}

theorem run_bind (w : Work α) (k : α → Work β) (p : Progress) :
    (w >>= k).run.run p = match w.run.run p with
      | (.ok a, p') => (k a).run.run p'
      | (.error f, p') => (.error f, p') := by
  rw [ExceptT.run_bind, StateT.run_bind]
  rcases w.run.run p with ⟨result, p'⟩
  cases result <;> rfl

@[simp] theorem run_pure (a : α) (p : Progress) : (pure a : Work α).run.run p = (.ok a, p) := rfl

@[simp] theorem run_ofExcept (result : Except Failure α) (p : Progress) :
    (ofExcept result).run.run p = (result, p) := rfl

@[simp] theorem run_print (lines : List String) (p : Progress) :
    (print lines).run.run p = (.ok (), p.print lines) := rfl

@[simp] theorem run_say (o : Options) (lines : List String) (p : Progress) :
    (say o lines).run.run p = (.ok (), if o.json then p else p.print lines) := by
  cases h : o.json <;> rw [say, h] <;> rfl

end Work

theorem Progress.print_nil (p : Progress) : p.print [] = p := by
  simp [print, Text.closed]

theorem Progress.print_append (p : Progress) (a b : List String) :
    p.print (a ++ b) = (p.print a).print b := by
  simp [print, Text.closed_append, String.append_assoc]

theorem foldl_print (shown : List Execution) (p : Progress) :
    shown.foldl (fun p e ↦ p.print [Report.snapshot e]) p =
      p.print (shown.map Report.snapshot) := by
  induction shown generalizing p with
  | nil => exact p.print_nil.symm
  | cons e shown ih => rw [List.foldl_cons, ih, ← Progress.print_append, List.map_cons]; rfl

/-- Between the first lines of its transcript and the last one, a run prints what it is shown. -/
theorem exists_run_conduct (o : Options) (m : Machine) (r : Run) :
    ∃ lines last, endReport o m r = reportJson r last ∧
      transcript o m r = ["", "[EXECUTING TM INPUT: " ++ r.tape.text ++ " ]"] ++ lines ++
        [reportLine last] ∧
      ∀ p, (conduct o m r).run.run p =
        (.ok last, if o.json then p.run r else (p.run r).print lines) := by
  obtain ⟨n, last, h, -⟩ := exists_execute_eq m r (o.maxSteps.getD defaultMaxSteps)
  let shown := m.stages (m.launch r.tape r.head) n
  have hrun (p : Progress) : (conduct o m r).run.run p = (.ok last, shown.foldl
      (fun p e ↦ if o.trace && !o.json then p.print [Report.snapshot e] else p) (p.run r)) := by
    have hconduct : (conduct o m r).run.run p =
        let result := execute m r (o.maxSteps.getD defaultMaxSteps)
          (fun p e ↦ if o.trace && !o.json then p.print [Report.snapshot e] else p) (p.run r)
        (.ok result.2, result.1) := rfl
    rw [hconduct, h]
  refine ⟨if o.trace then shown.map Report.snapshot else [], last, by rw [endReport, h],
    transcript_eq h, fun p ↦ ?_⟩
  rw [hrun]
  cases o.trace <;> cases o.json <;> simp [foldl_print, Progress.print_nil]

/-- A run is made, and its transcript is printed unless the reports are to be JSON. -/
theorem run_performRun (r : Run) (p : Progress) :
    (performRun o m r).run.run p = (.ok (endReport o m r),
      if o.json then p.run r else (p.run r).print (transcript o m r)) := by
  obtain ⟨lines, last, hreport, htranscript, hconduct⟩ := exists_run_conduct o m r
  simp only [performRun, Work.run_bind, Work.run_say, Work.run_pure, hconduct, hreport, htranscript,
    Progress.print_append]
  cases o.json <;> rfl

/-- All runs are made, in order. -/
theorem run_mapM_performRun (runs : List Run) (p : Progress) :
    (runs.mapM (performRun o m)).run.run p = (.ok (runs.map (endReport o m)),
      ⟨p.printed ++ Text.closed (if o.json then [] else runs.flatMap (transcript o m)),
        p.executed ++ runs⟩) := by
  induction runs generalizing p with
  | nil =>
    rw [List.mapM_nil, Work.run_pure]
    simp [Text.closed]
  | cons r runs ih =>
    simp only [List.mapM_cons, Work.run_bind, run_performRun, ih, Work.run_pure, List.map_cons]
    cases o.json
    · simp [Progress.run, Progress.print, Text.closed_append, String.append_assoc]
    · simp [Progress.run]

/-- The runs are made and reported, and nothing fails. -/
theorem run_performRuns (runs : List Run) (p : Progress) :
    (performRuns o m runs).run.run p =
      (.ok (), ⟨p.printed ++ report o m runs, p.executed ++ runs⟩) := by
  simp only [performRuns, Work.run_bind, Work.run_say, run_mapM_performRun, report]
  cases hj : o.json
  · simp only [if_neg Bool.false_ne_true, Work.run_pure, Progress.print, Text.closed_append,
      String.append_assoc]
  · have hnone : Text.closed [] = "" := rfl
    simp only [if_true, Work.run_print, Progress.print, hnone, String.append_empty]
    rfl

/-! ### How a command ends -/

/-- What the command line answers, with all that it has done. -/
inductive Answer (args : List String) (s : Surroundings) : Result → Prop where
  | misused {e : UsageError} (hargs : Options.ofArguments args = .error e) :
      Answer args s ⟨2, "", some (.misused e), []⟩
  | listed {o : Options} (hargs : Options.ofArguments args = .ok o) (hlist : o.list = true) :
      Answer args s ⟨0, Text.closed listing, none, []⟩
  | notLoaded {o : Options} {f : Failure} (hargs : Options.ofArguments args = .ok o)
      (hlist : o.list = false) (hprogram : programOf o s = .error f) :
      Answer args s ⟨1, "", some f, []⟩
  | refused {o : Options} {p : Program} {c : Char} (hargs : Options.ofArguments args = .ok o)
      (hlist : o.list = false) (hprogram : programOf o s = .ok p)
      (hrefused : FirstRefusedFor o.inputs c) :
      Answer args s ⟨1, "", some (.invalidSymbol ⟨c⟩), []⟩
  | reported {o : Options} {p : Program} {runs : List Run}
      (hargs : Options.ofArguments args = .ok o) (hlist : o.list = false)
      (hprogram : programOf o s = .ok p) (htapes : ∀ t ∈ o.inputs, IsTape t)
      (hruns : runsOf o p = .ok runs) :
      Answer args s ⟨0, report o p.machine runs, none, runs⟩

namespace Answer

variable {args : List String} {result : Result}

/-- A command that fails has done nothing. -/
theorem idle (h : Answer args s result) (hexit : result.exit ≠ 0) :
    result.output = "" ∧ result.executed = [] := by
  cases h with
  | misused | notLoaded | refused => exact ⟨rfl, rfl⟩
  | listed | reported => exact absurd rfl hexit

/-- A command that is to list the catalogue does so, whatever else it is given. -/
theorem of_list (h : Answer args s result) (hargs : Options.ofArguments args = .ok o)
    (hlist : o.list = true) : result = ⟨0, Text.closed listing, none, []⟩ := by
  cases h with
  | misused hargs' => cases hargs.symm.trans hargs'
  | listed => rfl
  | notLoaded hargs' hnot | refused hargs' hnot | reported hargs' hnot =>
    cases hargs.symm.trans hargs'
    exact absurd (hlist.symm.trans hnot) (by decide)

/-- A command that is given something else than a tape fails, for the program or else for the first
such text. -/
theorem of_not_tape (h : Answer args s result) (hargs : Options.ofArguments args = .ok o)
    (hlist : o.list = false) (htext : ∃ text ∈ o.inputs, ¬ IsTape text) :
    (∃ f, programOf o s = .error f ∧ result = ⟨1, "", some f, []⟩) ∨
      ∃ p c, programOf o s = .ok p ∧ FirstRefusedFor o.inputs c ∧
        result = ⟨1, "", some (.invalidSymbol ⟨c⟩), []⟩ := by
  cases h with
  | misused hargs' => cases hargs.symm.trans hargs'
  | listed hargs' hlist' =>
    cases hargs.symm.trans hargs'
    exact absurd (hlist.symm.trans hlist') (by decide)
  | notLoaded hargs' _ hprogram =>
    cases hargs.symm.trans hargs'
    exact .inl ⟨_, hprogram, rfl⟩
  | refused hargs' _ hprogram hrefused =>
    cases hargs.symm.trans hargs'
    exact .inr ⟨_, _, hprogram, hrefused, rfl⟩
  | reported hargs' _ _ htapes =>
    cases hargs.symm.trans hargs'
    obtain ⟨text, hmem, hnot⟩ := htext
    exact absurd (htapes text hmem) hnot

end Answer

theorem run_perform_of_not_list (hlist : o.list = false) (p : Progress) :
    (perform o s).run.run p = match programOf o s with
      | .error f => (.error f, p)
      | .ok program =>
        match runsOf o program with
        | .error f => (.error f, p)
        | .ok runs =>
          (.ok (), ⟨p.printed ++ report o program.machine runs, p.executed ++ runs⟩) := by
  rw [perform, if_neg (by simp [hlist]), Work.run_bind, Work.run_ofExcept]
  cases programOf o s with
  | error f => rfl
  | ok program =>
    dsimp only
    rw [Work.run_bind, Work.run_ofExcept]
    cases runsOf o program with
    | error f => rfl
    | ok runs => exact run_performRuns runs p

/-- A command ends in one of these ways. -/
theorem answer_respond (args : List String) (s : Surroundings) :
    Answer args s (respond args s) := by
  have hcommand : (command args s).run.run Progress.none =
      match Options.ofArguments args with
      | .error e => (.error (.misused e), Progress.none)
      | .ok o => (perform o s).run.run Progress.none := by
    rw [command, Work.run_bind, Work.run_ofExcept]
    cases Options.ofArguments args <;> rfl
  rw [respond, hcommand]
  cases hargs : Options.ofArguments args with
  | error e => exact .misused hargs
  | ok o =>
    cases hlist : o.list with
    | true =>
      have hrun : (perform o s).run.run Progress.none =
          (.ok (), ⟨Text.closed listing, []⟩) := by
        rw [perform, if_pos hlist, Work.run_print, Progress.print]
        simp [Progress.none]
      simp only [hrun]
      exact .listed hargs hlist
    | false =>
      simp only [run_perform_of_not_list hlist]
      cases hprogram : programOf o s with
      | error f =>
        simp only [exit_of_programOf hprogram]
        exact .notLoaded hargs hlist hprogram
      | ok p =>
        rcases runsOf_cases o p with ⟨htapes, runs, hruns⟩ | ⟨c, hrefused, hruns⟩
        · simp only [hruns, Progress.none, String.empty_append, List.nil_append]
          exact .reported hargs hlist hprogram htapes hruns
        · simp only [hruns]
          exact .refused hargs hlist hprogram hrefused

/-- If the command line fails, nothing is printed and nothing is run. If one of the tapes given to
it is none, no tape is run, and unless it lists the catalogue it fails: for the program if that
cannot be loaded, and else for the first character that is no symbol in the first of the tapes that
are none. -/
theorem respond_fails_idle (args : List String) (s : Surroundings) :
    let result := respond args s
    (result.exit ≠ 0 → result.output = "" ∧ result.executed = []) ∧
      ∀ o, Options.ofArguments args = .ok o → (∃ text ∈ o.inputs, ¬ IsTape text) →
        result.executed = [] ∧
        (o.list = true → result.output = Text.closed listing) ∧
        (o.list = false → result.exit = 1 ∧ result.output = "" ∧
          (∀ f, programOf o s = .error f → result.failure = some f) ∧
          ∀ p, programOf o s = .ok p →
            ∃ c, FirstRefusedFor o.inputs c ∧ result.failure = some (.invalidSymbol ⟨c⟩)) := by
  intro result
  have hanswer : Answer args s result := answer_respond args s
  generalize result = result at hanswer
  refine ⟨hanswer.idle, fun o hargs htext ↦ ?_⟩
  cases hlist : o.list with
  | true =>
    rw [hanswer.of_list hargs hlist]
    exact ⟨rfl, fun _ ↦ by dsimp only, fun h ↦ absurd h (by decide)⟩
  | false =>
    rcases hanswer.of_not_tape hargs hlist htext with
      ⟨f, hprogram, rfl⟩ | ⟨p, c, hprogram, hrefused, rfl⟩
    · refine ⟨rfl, fun h ↦ absurd h (by decide), fun _ ↦ ⟨rfl, rfl, fun f' hf' ↦ ?_, fun p hp ↦ ?_⟩⟩
      · rw [Except.error.inj (hprogram.symm.trans hf')]
      · cases hprogram.symm.trans hp
    · refine ⟨rfl, fun h ↦ absurd h (by decide), fun _ ↦ ⟨rfl, rfl, fun f hf ↦ ?_, fun _ _ ↦ ?_⟩⟩
      · cases hprogram.symm.trans hf
      · exact ⟨c, hrefused, rfl⟩

/-- With three tapes of which the second and the third are none, a program of the catalogue is run
on none of them. -/
theorem respond_fails_idle_second_tape :
    let args := ["--name", "Eraser", "-c", "--input", "ab", "-i", "a b", "--input= "]
    let result := respond args ⟨fun _ ↦ .error .notFound, none⟩
    result.exit = 1 ∧ result.output = "" ∧ result.executed = [] ∧
      ∃ c, FirstRefusedFor ["ab", "a b", " "] c ∧
        result.failure = some (.invalidSymbol ⟨c⟩) := by
  intro args
  let o : Options := { Options.none with
    name := some "Eraser", config := true, inputs := ["ab", "a b", " "] }
  have hargs : Options.ofArguments args = .ok o := rfl
  -- Nothing else is known of the arguments from here on, or else the answer would be evaluated.
  clear_value args
  have hinvalid : ¬ IsTape "a b" := fun h ↦ absurd (h ' ' (by decide)) (by decide)
  have hfind : Catalogue.machines.find? (fun n ↦ Catalogue.sameName n.1 "Eraser") =
      some ("Eraser", Catalogue.eraserMachine) := by decide
  obtain ⟨p, hp, -, -⟩ := Catalogue.exists_programNamed hfind
  have hprogram : programOf o ⟨fun _ ↦ .error .notFound, none⟩ = .ok p := by
    have heq : programOf o ⟨fun _ ↦ .error .notFound, none⟩ =
        (Catalogue.programNamed "Eraser").mapError .notInCatalogue := rfl
    rw [heq, hp]
    rfl
  obtain ⟨hidle, htapes⟩ := respond_fails_idle args ⟨fun _ ↦ .error .notFound, none⟩
  obtain ⟨-, -, hfails⟩ := htapes o hargs ⟨"a b", by simp [o], hinvalid⟩
  obtain ⟨hexit, -, -, hrefused⟩ := hfails rfl
  obtain ⟨houtput, hexecuted⟩ := hidle fun h ↦ absurd (hexit.symm.trans h) Nat.one_ne_zero
  exact ⟨hexit, houtput, hexecuted, hrefused p hprogram⟩

end CommandLine

end TapeMachine
