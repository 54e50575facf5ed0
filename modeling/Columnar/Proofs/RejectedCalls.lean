import Columnar.Lz4.Matcher
import Columnar.Proofs.WriterFailures

/-! # Calls that are rejected

A writer may be called in any order, and calls may fail. If it is finished in the end, it is as if
nothing had been asked of it but to take the rows that it took. -/

namespace Columnar

namespace SegmentWriter

variable {id : UInt32} {schema : Schema} {options : SegmentOptions} {initial : Array UInt8}
  {done : Bool} {rows : List Row} {w : SegmentWriter}

/-! ## Calls and where they lead -/

/-- What a writer can be asked for. -/
inductive Call
  | init
  | append (row : Row)
  | estimate
  | finalize

/-- What a call does to a writer that writes behind `initial`. Some calls give a size. -/
def Call.run [Lz4.Compressor] (initial : Array UInt8) :
    Call → EStateM Error SegmentWriter (Option ℕ)
  | .init => (fun _ => none) <$> SegmentWriter.init (.ok (.memory initial))
  | .append row => (fun _ => none) <$> SegmentWriter.append row
  | .estimate => return some (← get).estimatedSize
  | .finalize => some <$> SegmentWriter.finalize

/-- What came of a call. -/
abbrev Answer := Except Error (Option ℕ)

def answer [Lz4.Compressor] (initial : Array UInt8) (call : Call) (w : SegmentWriter) :
    Answer × SegmentWriter :=
  settle (call.run initial w)

/-- The row that was taken, if any was. -/
def Call.taken? : Call × Answer → Option Row
  | (.append row, .ok _) => some row
  | _ => none

/-- A writer was finished. -/
def Call.finishes : Call × Answer → Bool
  | (.finalize, .ok _) => true
  | _ => false

/-- The file of a writer that writes behind `initial`. -/
def file (initial : Array UInt8) (w : SegmentWriter) : OutputFile :=
  w.output.getD (.memory initial)

/-- Where calls lead that took these rows, and by which the writer was finished or not. -/
inductive Reached [Lz4.Compressor] (id : UInt32) (schema : Schema) (options : SegmentOptions)
    (initial : Array UInt8) : Bool → List Row → SegmentWriter → Prop
  | created : Reached id schema options initial false [] { id, schema, options }
  | taking {rows : List Row} {w₀ w : SegmentWriter}
      (init : init (.ok (.memory initial)) { id, schema, options } = .ok () w₀)
      (append : appendAll rows w₀ = .ok () w) : Reached id schema options initial false rows w
  | spoilt {rows : List Row} {w : SegmentWriter} (spoilt : Spoilt initial w) :
      Reached id schema options initial false rows w
  | failed {rows : List Row} {w : SegmentWriter} (stage : w.stage = .finalized) :
      Reached id schema options initial false rows w
  | finished {rows : List Row} {w : SegmentWriter} {bytes : Array UInt8}
      (stage : w.stage = .finalized) (output : w.output = some (.memory bytes))
      (writes : Writes id schema options initial rows bytes) :
      Reached id schema options initial true rows w

/-- How the writer stands after a call, if it stood at `w`. -/
def LeadsOn [Lz4.Compressor] (id : UInt32) (schema : Schema) (options : SegmentOptions)
    (initial : Array UInt8) (done : Bool) (rows : List Row) (call : Call) (w : SegmentWriter) :
    Prop :=
  let (a, w') := answer initial call w
  Reached id schema options initial (done || Call.finishes (call, a))
    (rows ++ (Call.taken? (call, a)).toList) w'

namespace Reached

variable [Lz4.Compressor]

/-- A writer that takes rows holds those that it took. -/
theorem holds {w₀ : SegmentWriter}
    (hinit : SegmentWriter.init (.ok (.memory initial)) { id, schema, options } = .ok () w₀)
    (hrows : appendAll rows w₀ = .ok () w) :
    ∃ plan : SegmentPlan, plan.id = id ∧ plan.schema = schema ∧ plan.options = options ∧
      plan.Holds initial rows w := by
  obtain ⟨plan, hid, hschema, hoptions, hholds⟩ := SegmentPlan.init_eq_ok hinit
  exact ⟨plan, hid, hschema, hoptions, by simpa using hholds.appendAll hrows⟩

/-- Until it is finished the writer appends nothing. -/
theorem file_eq (h : Reached id schema options initial done rows w)
    (hstage : w.stage ≠ .finalized) : w.file initial = .memory initial := by
  cases h with
  | created => rfl
  | taking hinit hrows =>
      obtain ⟨plan, -, -, -, hholds⟩ := holds hinit hrows
      rw [file, hholds.output, Option.getD_some]
  | spoilt hspoilt => rw [file, hspoilt.output, Option.getD_some]
  | failed hfinal => exact absurd hfinal hstage
  | finished hfinal => exact absurd hfinal hstage

/-- A call that fails and leaves the writer as it was leads nowhere. -/
theorem refused (h : Reached id schema options initial done rows w) {call : Call} {e : Error}
    (hrun : answer initial call w = (.error e, w)) :
    LeadsOn id schema options initial done rows call w := by
  have hfinishes : Call.finishes (call, .error e) = false := by cases call <;> rfl
  have htaken : Call.taken? (call, .error e) = none := by cases call <;> rfl
  rw [LeadsOn, hrun]
  dsimp only
  rw [hfinishes, htaken, Bool.or_false, Option.toList_none, List.append_nil]
  exact h

/-- A writer that is not ready was asked for nothing else. -/
theorem created_of_stage (h : Reached id schema options initial done rows w)
    (hstage : w.stage = .created) : done = false ∧ rows = [] ∧ w = { id, schema, options } := by
  cases h with
  | created => exact ⟨rfl, rfl, rfl⟩
  | taking hinit hrows =>
      obtain ⟨plan, -, -, -, hholds⟩ := holds hinit hrows
      cases (hstage ▸ hholds.stage : Segment.Stage.created.isOpen = true)
  | spoilt hspoilt => cases (hstage ▸ hspoilt.stage : Segment.Stage.created.isOpen = true)
  | failed hfinal => cases hstage.symm.trans hfinal
  | finished hfinal => cases hstage.symm.trans hfinal

theorem init (h : Reached id schema options initial done rows w) :
    LeadsOn id schema options initial done rows .init w := by
  by_cases hstage : w.stage = .created
  · obtain ⟨rfl, rfl, rfl⟩ := h.created_of_stage hstage
    cases hrun : SegmentWriter.init (.ok (.memory initial)) { id, schema, options } with
    | ok _ w₀ =>
        rw [LeadsOn, answer, Call.run, settle_map, hrun]
        exact .taking hrun rfl
    | error e w' =>
        obtain rfl := init_eq_error hrun
        exact h.refused (by rw [answer, Call.run, settle_map, hrun]; rfl)
  · exact h.refused (by rw [answer, Call.run, settle_map, init_of_ne _ hstage]; rfl)

theorem append (h : Reached id schema options initial done rows w) (row : Row) :
    LeadsOn id schema options initial done rows (.append row) w := by
  have hrefused : ∀ e, SegmentWriter.append row w = .error e w →
      LeadsOn id schema options initial done rows (.append row) w := fun e hrun =>
    h.refused (by rw [answer, Call.run, settle_map, hrun]; rfl)
  cases h with
  | created => exact hrefused _ (append_of_closed row rfl)
  | taking hinit hrows =>
      obtain ⟨plan, -, -, -, hholds⟩ := holds hinit hrows
      rcases hholds.append_cases row with ⟨w', hrun⟩ | ⟨e, hrun⟩ | ⟨e, w', hrun, hspoilt⟩
      · rw [LeadsOn, answer, Call.run, settle_map, hrun]
        exact .taking hinit (appendAll_concat hrows hrun)
      · exact hrefused e hrun
      · rw [LeadsOn, answer, Call.run, settle_map, hrun]
        exact .spoilt hspoilt
  | spoilt hspoilt =>
      rw [LeadsOn, answer, Call.run, settle_map]
      exact .spoilt (hspoilt.append row)
  | failed hfinal => exact hrefused _ (append_of_closed row (by rw [hfinal]; rfl))
  | finished hfinal => exact hrefused _ (append_of_closed row (by rw [hfinal]; rfl))

theorem finalize (h : Reached id schema options initial done rows w) :
    LeadsOn id schema options initial done rows .finalize w := by
  cases hopen : w.stage.isOpen with
  | false =>
      exact h.refused (by rw [answer, Call.run, settle_map, finalize_of_closed hopen]; rfl)
  | true =>
      have hfinal := stage_finalize hopen
      cases h with
      | created => cases hopen
      | taking hinit hrows =>
          rw [LeadsOn, answer, Call.run, settle_map]
          cases hrun : SegmentWriter.finalize w with
          | error e w' =>
              rw [hrun] at hfinal
              exact .failed hfinal
          | ok size w' =>
              rw [hrun] at hfinal
              obtain ⟨plan, -, -, -, hholds⟩ := holds hinit hrows
              obtain ⟨more, footer, houtput, -⟩ := hholds.finalize hrun
              change Reached id schema options initial true (rows ++ []) w'
              rw [List.append_nil]
              exact .finished hfinal houtput (.run hinit hrows hrun houtput)
      | spoilt hspoilt =>
          rw [LeadsOn, answer, Call.run, settle_map]
          cases hrun : SegmentWriter.finalize w with
          | error e w' =>
              rw [hrun] at hfinal
              exact .failed hfinal
          | ok size w' => exact absurd hrun hspoilt.finalize_ne_ok
      | failed hstage => rw [hstage] at hopen; cases hopen
      | finished hstage => rw [hstage] at hopen; cases hopen

/-- Each call leads on. -/
theorem answer (h : Reached id schema options initial done rows w) (call : Call) :
    LeadsOn id schema options initial done rows call w := by
  cases call with
  | init => exact h.init
  | append row => exact h.append row
  | estimate =>
      change Reached id schema options initial (done || false) (rows ++ []) w
      rw [Bool.or_false, List.append_nil]
      exact h
  | finalize => exact h.finalize

/-! ## The file -/

theorem file_init (h : Reached id schema options initial done rows w) :
    (settle (SegmentWriter.init (.ok (.memory initial)) w)).2.file initial = w.file initial := by
  by_cases hstage : w.stage = .created
  · obtain ⟨rfl, rfl, rfl⟩ := h.created_of_stage hstage
    cases hrun : SegmentWriter.init (.ok (.memory initial)) { id, schema, options } with
    | ok _ w₀ =>
        obtain ⟨plan, -, -, -, hholds⟩ := SegmentPlan.init_eq_ok hrun
        rw [settle, file, hholds.output]
        rfl
    | error e w' =>
        obtain rfl := init_eq_error hrun
        rfl
  · rw [init_of_ne _ hstage]
    rfl

theorem file_append (h : Reached id schema options initial done rows w) (row : Row) :
    (settle (SegmentWriter.append row w)).2.file initial = w.file initial := by
  cases hopen : w.stage.isOpen with
  | false =>
      rw [append_of_closed row hopen]
      rfl
  | true =>
      have hfile := h.file_eq (by intro hstage; rw [hstage] at hopen; cases hopen)
      cases h with
      | created => cases hopen
      | taking hinit hrows =>
          obtain ⟨plan, -, -, -, hholds⟩ := holds hinit hrows
          rcases hholds.append_cases row with ⟨w', hrun⟩ | ⟨e, hrun⟩ | ⟨e, w', hrun, hspoilt⟩
          · rw [hrun, settle, hfile, file, (hholds.append hrun).output, Option.getD_some]
          · rw [hrun, settle]
          · rw [hrun, settle, hfile, file, hspoilt.output, Option.getD_some]
      | spoilt hspoilt => rw [hfile, file, (hspoilt.append row).output, Option.getD_some]
      | failed hstage => rw [hstage] at hopen; cases hopen
      | finished hstage => rw [hstage] at hopen; cases hopen

/-- Only what finishes the writer appends to its file. -/
theorem file_answer (h : Reached id schema options initial done rows w) {call : Call}
    (hcall : call = .finalize → w.stage.isOpen = false) :
    (SegmentWriter.answer initial call w).2.file initial = w.file initial := by
  cases call with
  | init =>
      rw [SegmentWriter.answer, Call.run, settle_map]
      exact h.file_init
  | append row =>
      rw [SegmentWriter.answer, Call.run, settle_map]
      exact h.file_append row
  | estimate => rfl
  | finalize =>
      rw [SegmentWriter.answer, Call.run, settle_map, finalize_of_closed (hcall rfl)]
      rfl

end Reached

/-! ## Calls one after the other -/

/-- The rows that were taken, as the answers tell. -/
def Call.taken (events : List (Call × Answer)) : List Row := events.filterMap Call.taken?

theorem Call.taken_concat (events : List (Call × Answer)) (event : Call × Answer) :
    taken (events ++ [event]) = taken events ++ (taken? event).toList := by
  rw [taken, taken, List.filterMap_append]
  cases htaken : taken? event <;> simp [htaken]

/-- Calls lead to where they lead one after the other. -/
theorem reached_answers [Lz4.Compressor] (id : UInt32) (schema : Schema) (options : SegmentOptions)
    (initial : Array UInt8) (calls : List Call) :
    let run := answers (answer initial) calls { id, schema, options }
    Reached id schema options initial ((calls.zip run.1).any Call.finishes)
      (Call.taken (calls.zip run.1)) run.2 := by
  refine answers_keep (fun events w => Reached id schema options initial
    (events.any Call.finishes) (Call.taken events) w) (fun events call w h => ?_) calls [] .created
  have hleads := h.answer call
  rw [LeadsOn] at hleads
  simpa only [Call.taken_concat, List.any_append, List.any_cons, List.any_nil, Bool.or_false]
    using hleads

theorem Call.finishes_iff {event : Call × Answer} :
    finishes event = true ↔ ∃ size, event = (.finalize, .ok size) := by
  obtain ⟨call, a⟩ := event
  cases call <;> cases a <;> simp [finishes]

/-- A writer that was finished, whatever else was asked of it in between, has written the file of a
writer that is asked for nothing but to take the rows that were taken. Only finishing a writer that
takes rows appends to the file. -/
theorem rejected_calls_leave_no_trace [Lz4.Compressor] (id : UInt32) (schema : Schema)
    (options : SegmentOptions) (initial : Array UInt8) (calls : List Call)
    (hfinished : ∃ size, (Call.finalize, .ok size) ∈
      calls.zip (answers (answer initial) calls { id, schema, options }).1) :
    let run := answers (answer initial) calls { id, schema, options }
    (∃ bytes, run.2.file initial = .memory bytes ∧
      Writes id schema options initial (Call.taken (calls.zip run.1)) bytes) ∧
    ∀ before call after, calls = before ++ call :: after →
      let w := (answers (answer initial) before { id, schema, options }).2
      (call = .finalize → w.stage.isOpen = false) →
        (answer initial call w).2.file initial = w.file initial := by
  intro run
  constructor
  · have hreached : Reached id schema options initial _ _ run.2 :=
      reached_answers id schema options initial calls
    obtain ⟨size, hmem⟩ := hfinished
    have hany : (calls.zip run.1).any Call.finishes = true :=
      List.any_eq_true.mpr ⟨_, hmem, Call.finishes_iff.mpr ⟨size, rfl⟩⟩
    rw [hany] at hreached
    cases hreached with
    | finished hstage houtput hwrites => exact ⟨_, by rw [file, houtput]; rfl, hwrites⟩
  · intro before call after _ w hcall
    exact (reached_answers id schema options initial before).file_answer hcall

attribute [local instance] Lz4.matcher

/-- Calls before the writer is ready, rows that are too short or have a null where there must be
none, and calls behind the end. -/
theorem rejected_calls_leave_no_trace_mixed :
    let schema : Schema := {
      columns := [{ uniqueId := 7, name := "id", type := .int, isKey := true, isNullable := false },
        { uniqueId := 9, name := "tag", type := .varchar, length := 2 }]
      shortKeys := 1
      nonempty := by decide
      distinct := by decide
      keysFirst := by decide
      shortKeys_le := by decide }
    let options : SegmentOptions := { numRowsPerBlock := 1, maxRowsPerPage := 1 }
    let rows : List Row := [[some (.int32 5), some (.bytes [97])], [some (.int32 7), none]]
    let calls : List Call := [.append [some (.int32 5), none], .finalize, .init, .estimate, .init,
      .append [some (.int32 5), some (.bytes [97])], .append [some (.int32 6)],
      .append [none, none], .append [some (.int32 6), some (.bytes [97, 98, 99])],
      .append [some (.int32 7), none],
      .finalize, .append [some (.int32 8), none], .init, .finalize, .estimate]
    let run := answers (answer #[1, 2, 3]) calls { id := 4, schema, options }
    (∃ size, (Call.finalize, .ok size) ∈ calls.zip run.1) ∧
      ∃ bytes, run.2.file #[1, 2, 3] = .memory bytes ∧
        Writes 4 schema options #[1, 2, 3] rows bytes := by
  intro schema options rows calls run
  have hany : (calls.zip run.1).any Call.finishes = true := by
    decide +kernel
  have htaken : Call.taken (calls.zip run.1) = rows := by
    decide +kernel
  obtain ⟨event, hmem, hfinishes⟩ := List.any_eq_true.mp hany
  obtain ⟨size, rfl⟩ := Call.finishes_iff.mp hfinishes
  have hfile := (rejected_calls_leave_no_trace 4 schema options #[1, 2, 3] calls ⟨size, hmem⟩).1
  exact ⟨⟨size, hmem⟩, htaken ▸ hfile⟩

end SegmentWriter

end Columnar
