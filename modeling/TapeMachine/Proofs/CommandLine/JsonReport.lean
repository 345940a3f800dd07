import TapeMachine.Proofs.CommandLine.Trace
import TapeMachine.Proofs.Json.Faithful
import TapeMachine.Proofs.Json.Text

/-!
# Reports in JSON

The numbers of a run stay within the limits of numbers, if those of its machine and its input are.
So what `--json` prints is read back as one array with an object for each input, in order. An object
about a run that has halted tells everything about it, and no name in it is repeated. In an object
about a run that was given up, the name `head` stands twice, first for the head at the start and
then for the last head, so that only the last is left when the text is read
(`report_json_reads_back`).
-/

namespace TapeMachine

open Json JsonForm

/-! ### Numbers within the limits -/

/-- The numbers of a run under way, besides the count of its moves, are within the limits. -/
structure Execution.WithinLimits (e : Execution) : Prop where
  state : Fits e.state
  head : Fits e.head
  size : (e.tape.size : Int) ≤ maxPosition
  halt : ∀ halt, e.halt = some halt → Fits halt

private theorem Action.MovesBy.distance {a : Action} {d : Int} (h : a.MovesBy d) :
    d = 1 ∨ d = -1 := by
  cases h with
  | right => exact .inl rfl
  | left => exact .inr rfl

namespace Machine

variable {m : Machine} {e e' : Execution}

/-- The states that the rules lead to are within the limits. -/
def NextFits (m : Machine) : Prop := ∀ q s t, m.HasRule q s t → Fits t

/-- A round keeps within the limits: a head goes no further than one cell off its tape. -/
theorem Round.withinLimits (hr : m.Round e e') (hm : m.NextFits) (h : e.WithinLimits) :
    e'.WithinLimits := by
  have hbeside {position d : Int} (hc : e.tape.Covers position) (hd : d = 1 ∨ d = -1) :
      Fits (position + d) := by
    have hsize := h.size
    have hpos := hc.1
    have hlt := hc.2
    constructor
    · simp only [minPosition]
      omega
    · omega
  cases hr with
  | stopped _ => exact h
  | outside _ _ => exact ⟨h.state, h.head, h.size, fun _ hh ↦ Option.some.inj hh ▸ h.head⟩
  | undefined _ _ _ => exact ⟨h.state, h.head, h.size, fun _ hh ↦ Option.some.inj hh ▸ h.state⟩
  | accepted _ _ _ _ =>
    exact ⟨h.state, h.head, by simpa using h.size, fun _ hh ↦ Option.some.inj hh ▸ trivial⟩
  | rejected _ _ _ _ =>
    exact ⟨h.state, h.head, by simpa using h.size, fun _ hh ↦ Option.some.inj hh ▸ trivial⟩
  | moved _ hread hrule hd _ =>
    refine ⟨hm _ _ _ hrule, hbeside hread.covers hd.distance, by simpa using h.size, ?_⟩
    rintro halt ⟨⟩
  | left _ hread hrule hd _ =>
    exact ⟨hm _ _ _ hrule, h.head, by simpa using h.size,
      fun _ hh ↦ Option.some.inj hh ▸ hbeside hread.covers hd.distance⟩

/-- A run that began within the limits stays within them. -/
theorem withinLimits_iterate_step (hm : m.NextFits) (h : e.WithinLimits) (k : Nat) :
    (m.step^[k] e).WithinLimits := by
  induction k with
  | zero => exact h
  | succ k ih =>
    rw [Function.iterate_succ_apply']
    exact (m.round_step _).withinLimits hm ih

end Machine

namespace CommandLine

variable {m : Machine} {r : Run} {e : Execution} {limit : Nat}

/-! ### Ends of runs -/

/-- The numbers of a machine, of an input and of the run on it are within the limits. A run without
a limit on its moves comes to an end, with a count of moves that is within the limits as well. -/
structure Reportable (m : Machine) (limit : Nat) (r : Run) : Prop where
  next : m.NextFits
  start : Fits m.start
  head : Fits r.head
  size : (r.tape.size : Int) ≤ maxPosition
  limit_le : limit ≤ maxCount
  ends : limit = 0 → ∃ o, m.run r.tape r.head = some o ∧ o.steps ≤ maxCount

theorem Reportable.reaches (h : Reportable m limit r) :
    Reaches m limit r (execute m r limit (fun u _ ↦ u) ()).2 :=
  reaches_execute h.limit_le (fun hzero ↦ (h.ends hzero).imp fun _ ho ↦ ho.1) _ _

/-- The numbers of a run where the command line has taken it to are within the limits. -/
theorem Reportable.withinLimits (h : Reportable m limit r) :
    (execute m r limit (fun u _ ↦ u) ()).2.WithinLimits := by
  have hstart : (m.launch r.tape r.head).WithinLimits := ⟨h.start, h.head, h.size, nofun⟩
  obtain ⟨n, last, hexecute, -, hend⟩ := exists_execute_eq m r limit
  rw [hexecute]
  rcases hend with rfl | ⟨rfl, -⟩
  · exact Machine.withinLimits_iterate_step h.next hstart n
  · exact Machine.withinLimits_iterate_step h.next hstart (n + 1)

theorem Reportable.steps_le (h : Reportable m limit r) :
    (execute m r limit (fun u _ ↦ u) ()).2.steps ≤ maxCount := by
  by_cases hzero : limit = 0
  · obtain ⟨o, ho, hsteps⟩ := h.ends hzero
    have hlast := h.reaches.unbounded hzero
    rw [ho, Execution.outcome?_eq_some_iff] at hlast
    rw [hlast]
    exact hsteps
  · rw [h.reaches.bounded hzero]
    exact Nat.le_trans (m.steps_runBounded_le limit _) (by simpa [Machine.launch] using h.limit_le)

/-! ### Reports -/

/-- What the fields of a report tell about a run that has halted. -/
structure TellsHalted (fields : List (String × Json)) (r : Run) (o : Outcome) : Prop where
  input : present fields "input" = .ok (some r.tape)
  head : present fields "head" = .ok (some r.head)
  status : field? "status" fields = some (.string "halted")
  outcome : present fields "outcome" = .ok (some o)

/-- What the fields of a report tell about a run that was given up; the head at the start is not
among it. -/
structure TellsGivenUp (fields : List (String × Json)) (r : Run) (e : Execution) : Prop where
  input : present fields "input" = .ok (some r.tape)
  status : field? "status" fields = some (.string "step_limit")
  state : present fields "state" = .ok (some e.state)
  tape : present fields "tape" = .ok (some e.tape)
  head : present fields "head" = .ok (some e.head)
  steps : present fields "steps" = .ok (some e.steps)

/-- The fields that are written about a run, and those that are read back. -/
inductive ReadBack (r : Run) (e : Execution) :
    List (String × Json) → List (String × Json) → Prop
  /-- Of a run that has halted no name is repeated, and everything is read back. -/
  | halted {fields : List (String × Json)} {o : Outcome} : e.outcome? = some o →
      (object fields).distinct = true → TellsHalted fields r o → ReadBack r e fields fields
  /-- Of a run that was given up the name `head` is repeated, and no other. What is read back has
  the last head in the place of the head at the start. -/
  | givenUp {before between after : List (String × Json)} : e.outcome? = none →
      (object (before ++ ("head", toJson e.head) :: (between ++ after))).distinct = true →
      TellsGivenUp (before ++ ("head", toJson e.head) :: (between ++ after)) r e →
      ReadBack r e
        (before ++ ("head", toJson r.head) :: (between ++ ("head", toJson e.head) :: after))
        (before ++ ("head", toJson e.head) :: (between ++ after))

/-- The JSON form of an outcome repeats no name. -/
private theorem distinct_outcome (o : Outcome) : (toJson o).distinct = true := by
  obtain ⟨halt, q, t, p, n⟩ := o
  cases halt <;> rfl

private theorem integral_outcome (o : Outcome) : (toJson o).integral = true := by
  obtain ⟨halt, q, t, p, n⟩ := o
  cases halt <;> rfl

/-- The fields of the report of a run. -/
def reportFields (r : Run) (e : Execution) : List (String × Json) :=
  match reportJson r e with
  | .object fields => fields
  | _ => []

/-- The report of a run that has halted is read back as it is. -/
theorem readBack_of_halted {o : Outcome} (ho : e.outcome? = some o) (hhead : Fits r.head)
    (hfits : Fits o) :
    reportJson r e = .object (reportFields r e) ∧ (reportJson r e).integral = true ∧
      ReadBack r e (reportFields r e) (mergedFields [] (reportFields r e)) := by
  have hfields : reportFields r e = [("input", toJson r.tape), ("head", toJson r.head),
      ("status", .string "halted"), ("outcome", toJson o)] := by
    rw [reportFields, reportJson, ho]
    rfl
  have hjson : reportJson r e = .object (reportFields r e) := by
    rw [hfields, reportJson, ho]
    rfl
  have hdistinct : (object (reportFields r e)).distinct = true := by
    rw [hfields]
    change (decide (["input", "head", "status", "outcome"] : List String).Nodup &&
      ((toJson o).distinct && true)) = true
    rw [distinct_outcome]
    decide
  have hsame : mergedFields [] (reportFields r e) = reportFields r e := by
    have hmerged := merged_of_distinct _ hdistinct
    rwa [merged, Json.object.injEq] at hmerged
  refine ⟨hjson, ?_, ?_⟩
  · rw [hjson, hfields]
    change ((toJson o).integral && true) = true
    rw [integral_outcome]
    rfl
  · rw [hsame]
    refine .halted ho hdistinct ?_
    rw [hfields]
    exact
      { input := present_eq_ok_some_iff.mpr ⟨_, rfl, ofJson_toJson trivial⟩
        head := present_eq_ok_some_iff.mpr ⟨_, rfl, ofJson_toJson hhead⟩
        status := rfl
        outcome := present_eq_ok_some_iff.mpr ⟨_, rfl, ofJson_toJson hfits⟩ }

/-- The report of a run that was given up is read back but for the head at the start. -/
theorem readBack_of_givenUp (he : e.outcome? = none) (hfits : e.WithinLimits)
    (hsteps : e.steps ≤ maxCount) :
    reportJson r e = .object (reportFields r e) ∧ (reportJson r e).integral = true ∧
      ReadBack r e (reportFields r e) (mergedFields [] (reportFields r e)) := by
  have hjson : reportJson r e = .object (reportFields r e) := by
    rw [reportFields, reportJson, he]
  have hfields : reportFields r e = [("input", toJson r.tape)] ++ ("head", toJson r.head) ::
      ([("status", .string "step_limit"), ("state", toJson e.state), ("tape", toJson e.tape)] ++
        ("head", toJson e.head) :: [("steps", toJson e.steps)]) := by
    rw [reportFields, reportJson, he]
    rfl
  have hmerged : mergedFields [] (reportFields r e) =
      [("input", toJson r.tape)] ++ ("head", toJson e.head) ::
        ([("status", .string "step_limit"), ("state", toJson e.state), ("tape", toJson e.tape)] ++
          [("steps", toJson e.steps)]) := by
    rw [hfields]
    rfl
  refine ⟨hjson, ?_, ?_⟩
  · rw [hjson, hfields]
    rfl
  · rw [hmerged, hfields]
    refine .givenUp he rfl ?_
    exact
      { input := present_eq_ok_some_iff.mpr ⟨_, rfl, ofJson_toJson trivial⟩
        status := rfl
        state := present_eq_ok_some_iff.mpr ⟨_, rfl, ofJson_toJson hfits.state⟩
        tape := present_eq_ok_some_iff.mpr ⟨_, rfl, ofJson_toJson trivial⟩
        head := present_eq_ok_some_iff.mpr ⟨_, rfl, ofJson_toJson hfits.head⟩
        steps := present_eq_ok_some_iff.mpr ⟨_, rfl, ofJson_toJson hsteps⟩ }

/-- The report of a run is read back, but for the head at the start of a run that was given up. -/
theorem Reportable.readBack (h : Reportable m limit r) :
    let e := (execute m r limit (fun u _ ↦ u) ()).2
    reportJson r e = .object (reportFields r e) ∧ (reportJson r e).integral = true ∧
      ReadBack r e (reportFields r e) (mergedFields [] (reportFields r e)) := by
  intro e
  have hfits : e.WithinLimits := h.withinLimits
  cases ho : e.outcome? with
  | none => exact readBack_of_givenUp ho hfits h.steps_le
  | some o =>
    have he := Execution.outcome?_eq_some_iff.mp ho
    have hsteps : e.steps ≤ maxCount := h.steps_le
    have hhalt := hfits.halt o.halt (by rw [he])
    have hstate := hfits.state
    have hhead := hfits.head
    rw [he] at hstate hhead hsteps
    exact readBack_of_halted ho h.head ⟨hhalt, hstate, hhead, hsteps⟩

private theorem integralItems_map {α : Type} {f : α → Json} {l : List α}
    (h : ∀ a ∈ l, (f a).integral = true) : integralItems (l.map f) = true := by
  induction l with
  | nil => rfl
  | cons a l ih =>
    rw [List.map_cons, integralItems, h a List.mem_cons_self,
      ih fun b hb ↦ h b (List.mem_cons_of_mem _ hb)]
    rfl

private theorem mergedItems_map {α : Type} (f : α → Json) (l : List α) :
    mergedItems (l.map f) = l.map fun a ↦ (f a).merged := by
  induction l with
  | nil => rfl
  | cons a l ih => rw [List.map_cons, List.map_cons, mergedItems, ih]

/-- With `--json` one array is printed, with one object for each input in their order, and it is
read back from what is printed. An object about a run that has halted repeats no name, and the tape,
the head at the start, the status and the whole outcome are read back from it. An object about a run
that was given up has the name `head` twice, for the head at the start and for the last head, and no
other name; everything but the head at the start is read back from it. -/
theorem report_json_reads_back {o : Options} {m : Machine} {runs : List Run} (ho : o.json = true)
    (hruns : ∀ r ∈ runs, Reportable m (o.maxSteps.getD defaultMaxSteps) r) :
    ∃ written read : Run → List (String × Json),
      report o m runs = Text.closed [(Json.list (fun r ↦ .object (written r)) runs).pretty] ∧
      Json.ofText? (report o m runs) = some (Json.list (fun r ↦ .object (read r)) runs) ∧
      ∀ r ∈ runs, ∃ e, Reaches m (o.maxSteps.getD defaultMaxSteps) r e ∧
        ReadBack r e (written r) (read r) := by
  let last (r : Run) : Execution :=
    (execute m r (o.maxSteps.getD defaultMaxSteps) (fun u _ ↦ u) ()).2
  let written (r : Run) : List (String × Json) := reportFields r (last r)
  have hone : ∀ r ∈ runs, reportJson r (last r) = .object (written r) :=
    fun r hr ↦ (hruns r hr).readBack.1
  have hwritten : report o m runs =
      Text.closed [(Json.list (fun r ↦ .object (written r)) runs).pretty] := by
    have hitems : Json.list (endReport o m) runs = Json.list (fun r ↦ .object (written r)) runs :=
      congrArg Json.array (List.map_congr_left hone)
    rw [report, if_pos ho, hitems]
  refine ⟨written, fun r ↦ mergedFields [] (written r), hwritten, ?_, fun r hr ↦
    ⟨last r, (hruns r hr).reaches, (hruns r hr).readBack.2.2⟩⟩
  have hintegral : (Json.list (fun r ↦ .object (written r)) runs).integral = true :=
    integralItems_map fun r hr ↦ hone r hr ▸ (hruns r hr).readBack.2.1
  have hmerged : (Json.list (fun r ↦ .object (written r)) runs).merged =
      Json.list (fun r ↦ .object (mergedFields [] (written r))) runs :=
    congrArg Json.array (mergedItems_map _ runs)
  rw [hwritten, ofText?_closed_pretty hintegral, hmerged]

/-- With a limit of one move the shuttle is given up on `aa`, and leaves the tape on `a`. -/
theorem report_json_reads_back_shuttle :
    let o : Options := { Options.none with json := true, maxSteps := some 1 }
    let runs : List Run := [⟨⟨#[⟨'a', rfl⟩, ⟨'a', rfl⟩]⟩, 0⟩, ⟨⟨#[⟨'a', rfl⟩]⟩, 0⟩]
    (o.json = true ∧ ∀ r ∈ runs, Reportable Machine.shuttle 1 r) ∧
      ∃ written read : Run → List (String × Json),
        report o Machine.shuttle runs =
          Text.closed [(Json.list (fun r ↦ .object (written r)) runs).pretty] ∧
        Json.ofText? (report o Machine.shuttle runs) =
          some (Json.list (fun r ↦ .object (read r)) runs) ∧
        ∀ r ∈ runs, ∃ e, Reaches Machine.shuttle 1 r e ∧ ReadBack r e (written r) (read r) := by
  intro o runs
  have hnext : Machine.shuttle.NextFits := by
    intro q s t h
    have hrules : (⟨⟨q, s⟩, t⟩ : Rule) ∈
        [⟨⟨⟨0⟩, ⟨'a', rfl⟩⟩, ⟨⟨1⟩, ⟨'a', rfl⟩, .moveRight⟩⟩,
          (⟨⟨⟨1⟩, ⟨'a', rfl⟩⟩, ⟨⟨0⟩, ⟨'a', rfl⟩, .moveLeft⟩⟩ : Rule)] := h
    rcases List.mem_cons.mp hrules with heq | hrules
    · cases heq
      exact (by decide : 1 ≤ maxCount)
    · cases List.mem_singleton.mp hrules
      exact (by decide : 0 ≤ maxCount)
  have hreportable (tape : Tape) (hsize : (tape.size : Int) ≤ maxPosition) :
      Reportable Machine.shuttle 1 ⟨tape, 0⟩ :=
    ⟨hnext, (by decide : 0 ≤ maxCount), (by decide : minPosition ≤ 0 ∧ 0 ≤ maxPosition), hsize,
      by decide, fun h ↦ absurd h (by decide)⟩
  have hruns : ∀ r ∈ runs, Reportable Machine.shuttle 1 r := by
    intro r hr
    rcases List.mem_cons.mp hr with rfl | hr
    · exact hreportable _ (by decide)
    · rw [List.mem_singleton.mp hr]
      exact hreportable _ (by decide)
  exact ⟨⟨rfl, hruns⟩, report_json_reads_back rfl hruns⟩

/-- The head at the start is lost in the report of a run that was given up: on `aa` the shuttle
begins at 0, and after one move 1 is read back. -/
theorem report_json_repeats_head :
    let r : Run := ⟨⟨#[⟨'a', rfl⟩, ⟨'a', rfl⟩]⟩, 0⟩
    let o : Options := { Options.none with json := true, maxSteps := some 1 }
    let written := reportJson r (execute Machine.shuttle r 1 (fun u _ ↦ u) ()).2
    report o Machine.shuttle [r] = Text.closed [(Json.array [written]).pretty] ∧
      written.distinct = false ∧
      ∃ fields, Json.ofText? (report o Machine.shuttle [r]) = some (.array [.object fields]) ∧
        present fields "head" = .ok (some (1 : Int)) ∧ r.head = 0 := by
  intro r o written
  have hreport : report o Machine.shuttle [r] = Text.closed [(Json.array [written]).pretty] := rfl
  have hlast : (execute Machine.shuttle r 1 (fun u _ ↦ u) ()).2 = ⟨⟨1⟩, r.tape, 1, 1, none⟩ := by
    decide
  have hwritten : written = .object [("input", .string "aa"), ("head", .integer 0),
      ("status", .string "step_limit"), ("state", .integer 1), ("tape", .string "aa"),
      ("head", .integer 1), ("steps", .integer 1)] := by
    unfold written
    rw [hlast]
    rfl
  refine ⟨hreport, by rw [hwritten]; decide, [("input", .string "aa"), ("head", .integer 1),
    ("status", .string "step_limit"), ("state", .integer 1), ("tape", .string "aa"),
    ("steps", .integer 1)], ?_, by decide, rfl⟩
  rw [hreport, hwritten, ofText?_closed_pretty (by decide)]
  rfl

end CommandLine

end TapeMachine
