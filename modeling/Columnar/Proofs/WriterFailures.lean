import Columnar.Proofs.Calls
import Columnar.Proofs.OfferedCells
import Columnar.Proofs.SegmentFile

/-! # Steps of a segment writer that fail

Most steps that fail leave the writer as it was. Where they do not, the writer cannot be finished
any more: the short keys have become too long to be stored. -/

namespace Columnar

namespace SegmentWriter

variable {w w' : SegmentWriter} {initial : Array UInt8}

/-! ## Steps that fail -/

theorem require_eq (step : String) (allowed : Segment.Stage → Bool) (w : SegmentWriter) :
    require step allowed w =
      if allowed w.stage then .ok () w
      else .error (.state (.stage step w.id.toNat w.stage)) w := by
  cases hallowed : allowed w.stage <;> simp [require, hallowed, get_bind] <;> rfl

theorem modify_bind {ε σ β : Type} (f : σ → σ) (g : PUnit → EStateM ε σ β) (s : σ) :
    (modify f >>= g) s = g ⟨⟩ (f s) := rfl

theorem init_of_ne (target : Except Error OutputFile) (h : w.stage ≠ .created) :
    init target w = .error (.state (.stage "init" w.id.toNat w.stage)) w := by
  change EStateM.bind (require "init" _) _ w = _
  rw [EStateM.bind, require_eq, if_neg (by simpa using h)]

/-- A writer that could not be made ready stays as it was. -/
theorem init_eq_error {target : Except Error OutputFile} {e : Error}
    (h : init target w = .error e w') : w' = w := by
  by_cases hstage : w.stage = .created
  · change EStateM.bind (require "init" _) _ w = _ at h
    rw [EStateM.bind, require_eq, if_pos (by simpa using hstage)] at h
    simp only [get_bind] at h
    by_cases hzero : w.options.numRowsPerBlock = 0 ∨ w.options.maxRowsPerPage = 0
    · rw [if_pos hzero] at h
      cases h
      rfl
    · rw [if_neg hzero] at h
      by_cases hblock : 2 ^ 32 ≤ w.options.numRowsPerBlock
      · rw [if_pos hblock] at h
        cases h
        rfl
      · rw [if_neg hblock] at h
        cases hws : columnWriters w.options 0 w.schema.columns with
        | error e =>
            simp only [hws] at h
            cases h
            rfl
        | ok ws =>
            cases target <;> simp only [hws] at h <;> cases h
            rfl
  · rw [init_of_ne target hstage] at h
    cases h
    rfl

/-- All that comes of a row. -/
theorem append_eq [Lz4.Compressor] (row : Row) (w : SegmentWriter) :
    append row w =
      if w.stage.isOpen = false then .error (.state (.stage "append_row" w.id.toNat w.stage)) w
      else if row.length ≠ w.columns.length then
        .error (.argument (.rowWidth row.length w.columns.length)) w
      else match checkCells w.columns row with
        | .error e => .error e w
        | .ok _ =>
          match appendCells row w.columns with
          | .error e columns => .error e { w with columns }
          | .ok _ columns =>
            match addKey row { w with columns } with
            | .error e w => .error e w
            | .ok _ w => .ok () { w with numRows := w.numRows + 1, stage := .appending } := by
  change EStateM.bind (require "append_row" Segment.Stage.isOpen) _ w = _
  rw [EStateM.bind, require_eq]
  cases hopen : w.stage.isOpen with
  | false => rfl
  | true =>
      simp only [if_true, get_bind, Bool.true_eq_false, if_false]
      by_cases hwidth : row.length ≠ w.columns.length
      · rw [if_pos hwidth, if_pos hwidth]
        rfl
      · rw [if_neg hwidth, if_neg hwidth]
        cases hcheck : checkCells w.columns row with
        | error e => rfl
        | ok _ =>
            change EStateM.bind (onColumns (appendCells row)) _ w = _
            rw [EStateM.bind, onColumns]
            cases hcells : appendCells row w.columns with
            | error e columns => rfl
            | ok _ columns =>
                dsimp only
                change EStateM.bind (addKey row) _ _ = _
                rw [EStateM.bind]
                cases addKey row { w with columns } <;> rfl

theorem append_of_closed [Lz4.Compressor] (row : Row) (h : w.stage.isOpen = false) :
    append row w = .error (.state (.stage "append_row" w.id.toNat w.stage)) w := by
  rw [append_eq, if_pos h]

/-- A row that begins a block adds a key, unless the draft refuses it. -/
theorem addKey_cases (row : Row) (w : SegmentWriter) :
    addKey row w = .ok () w ∨ addKey row w = .ok () (w.pushKey row) ∨
      ∃ e, w.shortKeys.bind ShortKeyDraft.refusal? = some e ∧ addKey row w = .error e w := by
  unfold addKey
  by_cases hblock : w.numRows % w.options.numRowsPerBlock ≠ 0
  · exact .inl (if_pos hblock)
  · rw [if_neg hblock]
    cases hroom : w.shortKeys.bind ShortKeyDraft.refusal? with
    | none => exact .inr (.inl rfl)
    | some e => exact .inr (.inr ⟨e, rfl, rfl⟩)

theorem finalize_of_closed [Lz4.Compressor] (h : w.stage.isOpen = false) :
    finalize w = .error (.state (.stage "finalize" w.id.toNat w.stage)) w := by
  change EStateM.bind (require "finalize" Segment.Stage.isOpen) _ w = _
  rw [EStateM.bind, require_eq, h, if_neg Bool.false_ne_true]

/-! ## A writer is finished once -/

theorem keeps_stage_write (bytes : Bytes) : Keeps stage (write bytes) := fun _ => rfl

theorem keeps_stage_writeShortKeys : Keeps stage writeShortKeys := by
  intro w
  rw [writeShortKeys, get_bind]
  cases w.shortKeys with
  | none => rfl
  | some draft =>
      simp only [set_bind]
      cases ShortKeyDraft.finalize w.numRows draft with
      | error e d => rfl
      | ok slices d =>
          refine ((keeps_stage_write _).bind fun _ => (keeps_stage_write _).bind fun _ =>
            (keeps_stage_write _).bind fun _ => ?_) { w with shortKeys := none }
          intro w'
          generalize Pointer.new _ _ = pointer
          cases pointer <;> rfl

theorem keeps_stage_writeFooter (p : Pointer) : Keeps stage (writeFooter p) := by
  intro w
  rw [writeFooter, get_bind]
  dsimp only
  split
  next => rfl
  next => exact ((keeps_stage_write _).bind fun _ => keeps_stage_write _) w

/-- Whatever comes of it, a writer that is finished is of no more use. -/
theorem stage_finalize [Lz4.Compressor] (h : w.stage.isOpen = true) :
    (settle (finalize w)).2.stage = .finalized := by
  change (settle (EStateM.bind (require "finalize" Segment.Stage.isOpen) _ w)).2.stage = _
  rw [EStateM.bind, require_eq, if_pos h]
  dsimp only
  rw [modify_bind, get_bind]
  cases w.output with
  | none => rfl
  | some file =>
      dsimp only
      cases writeColumns (w.columns, file) with
      | error e s => rfl
      | ok _ s =>
          refine (keeps_stage_writeShortKeys.bind fun p => (keeps_stage_writeFooter p).bind
            fun _ => ?_) { w with stage := .finalized, columns := s.1, output := some s.2 }
          exact fun _ => rfl

/-! ## A writer that cannot be finished -/

/-- Rows are taken, but the keys are so long that no pointer to them can be stored. -/
structure Spoilt (initial : Array UInt8) (w : SegmentWriter) : Prop where
  stage : w.stage.isOpen = true
  output : w.output = some (.memory initial)
  keys : ∃ d, w.shortKeys = some d ∧ 2 ^ 32 ≤ d.keyBytes.size

namespace Spoilt

theorem pushKey (h : Spoilt initial w) (row : Row) : Spoilt initial (w.pushKey row) := by
  obtain ⟨d, hd, hlong⟩ := h.keys
  rw [pushKey_eq, hd]
  refine ⟨h.stage, h.output, d.push (w.schema.shortKey row), rfl, ?_⟩
  simp only [ShortKeyDraft.push, ShortKeyDraft.pushWith, Bytes.size_appendTo]
  omega

/-- No row makes the keys shorter. -/
theorem append [Lz4.Compressor] (h : Spoilt initial w) (row : Row) :
    Spoilt initial (settle (SegmentWriter.append row w)).2 := by
  have hcolumns : ∀ columns, Spoilt initial { w with columns } := fun _ =>
    ⟨h.stage, h.output, h.keys⟩
  have htaken : ∀ w', Spoilt initial w' →
      Spoilt initial { w' with numRows := w'.numRows + 1, stage := .appending } := fun _ h' =>
    ⟨rfl, h'.output, h'.keys⟩
  rw [append_eq, h.stage, if_neg (by simp)]
  by_cases hwidth : row.length ≠ w.columns.length
  · rw [if_pos hwidth]
    exact h
  · rw [if_neg hwidth]
    cases checkCells w.columns row with
    | error e => exact h
    | ok _ =>
        dsimp only
        cases appendCells row w.columns with
        | error e columns => exact hcolumns columns
        | ok _ columns =>
            dsimp only
            rcases addKey_cases row { w with columns } with hkey | hkey | ⟨e, -, hkey⟩
            · rw [hkey]
              exact htaken _ (hcolumns columns)
            · rw [hkey]
              exact htaken _ ((hcolumns columns).pushKey _)
            · rw [hkey]
              exact hcolumns columns

/-- The short-key index cannot be written. -/
theorem writeShortKeys_ne_ok {d : ShortKeyDraft} (hd : w.shortKeys = some d)
    (hlong : 2 ^ 32 ≤ d.keyBytes.size) {p : Pointer} : writeShortKeys w ≠ .ok p w' := by
  intro hrun
  obtain ⟨slices, d', hfinal, hpointer, -⟩ := writeShortKeys_slices hrun hd
  have hkeys : slices.keys.length = d.keyBytes.size := by
    obtain ⟨-, hkeys, -⟩ := ShortKeyDraft.slices_of_finalize hfinal
    rw [hkeys, Array.length_toList, ByteArray.size]
  rw [Pointer.new, if_neg (by omega)] at hpointer
  cases hpointer

theorem finalize_ne_ok [Lz4.Compressor] (h : Spoilt initial w) {size : ℕ} :
    SegmentWriter.finalize w ≠ .ok size w' := by
  intro hrun
  obtain ⟨d, hd, hlong⟩ := h.keys
  obtain ⟨ws, out, p, w₁, w₂, -, hkeys, -⟩ := finalize_steps hrun h.output
  exact writeShortKeys_ne_ok (by exact hd) hlong hkeys

end Spoilt

/-! ## A writer that takes rows -/

variable [Lz4.Compressor]

theorem appendAll_concat {rows : List Row} {row : Row} {w₀ : SegmentWriter}
    (hrows : appendAll rows w₀ = .ok () w) (hrow : append row w = .ok () w') :
    appendAll (rows ++ [row]) w₀ = .ok () w' := by
  induction rows generalizing w₀ with
  | nil =>
      cases hrows
      simp only [List.nil_append, appendAll, hrow]
  | cons first rows ih =>
      obtain ⟨w₁, hfirst, hrest⟩ := appendAll_cons_eq_ok hrows
      simp only [List.cons_append, appendAll, hfirst]
      exact ih hrest

/-- Cells that all columns allow are taken by all of them. -/
theorem appendCells_of_checkCells {ts : List ColumnTask} {ws : List ColumnWriter} {row : Row}
    (hts : List.Forall₂ ColumnTask.Open ts ws) (haccepted : ∀ t ∈ ts, t.Accepted)
    (hlen : row.length = ws.length) (hcheck : checkCells ws row = .ok ()) :
    ∃ ws', appendCells row ws = .ok () ws' ∧
      List.Forall₂ ColumnTask.Open (List.zipWith ColumnTask.push ts row) ws' ∧
        ∀ t ∈ List.zipWith ColumnTask.push ts row, t.Accepted := by
  induction hts generalizing row with
  | nil => exact ⟨[], by cases row <;> rfl, .nil, by simp⟩
  | @cons t w ts ws hopen hts ih =>
      cases row with
      | nil => cases hlen
      | cons c row =>
          rw [checkCells] at hcheck
          cases hc : w.check c with
          | error e => rw [hc] at hcheck; cases hcheck
          | ok _ =>
              rw [hc] at hcheck
              obtain ⟨ws', hrest, hopens, hacc⟩ := ih
                (fun t ht => haccepted t (List.mem_cons_of_mem _ ht)) (Nat.succ.inj hlen) hcheck
              have hbefore := haccepted t List.mem_cons_self
              rcases hopen.1.append_cases hopen.2 hbefore c with
                ⟨hok, w', hrun, hholds, hopen'⟩ | ⟨hno, -⟩
              · refine ⟨w' :: ws', by simp only [appendCells, hrun, hrest],
                  .cons ⟨hholds, hopen'⟩ hopens, ?_⟩
                exact List.forall_mem_cons.mpr ⟨hbefore.push hok, hacc⟩
              · rw [hopen.1.check] at hc
                exact absurd hc hno

end SegmentWriter

namespace SegmentPlan

open SegmentWriter (append_eq addKey_cases Spoilt)

/-- A row is taken, or refused without a trace, or its key is the first that has no place. -/
theorem Holds.append_cases [Lz4.Compressor] {plan : SegmentPlan} {initial : Array UInt8}
    {rows : List Row} {w : SegmentWriter} (h : plan.Holds initial rows w) (row : Row) :
    (∃ w', SegmentWriter.append row w = .ok () w') ∨
      (∃ e, SegmentWriter.append row w = .error e w) ∨
      ∃ e w', SegmentWriter.append row w = .error e w' ∧ Spoilt initial w' := by
  rw [append_eq, h.stage, if_neg (by simp)]
  by_cases hwidth : row.length ≠ w.columns.length
  · exact .inr (.inl ⟨_, if_pos hwidth⟩)
  · rw [if_neg hwidth]
    cases hcheck : SegmentWriter.checkCells w.columns row with
    | error e => exact .inr (.inl ⟨e, rfl⟩)
    | ok _ =>
        obtain ⟨ws, hcells, -⟩ := SegmentWriter.appendCells_of_checkCells h.columns h.accepted
          (not_not.mp hwidth) hcheck
        simp only [hcells]
        rcases addKey_cases row { w with columns := ws } with hkey | hkey | ⟨e, hrefused, hkey⟩
        · exact .inl ⟨_, by rw [hkey]⟩
        · exact .inl ⟨_, by rw [hkey]⟩
        · obtain ⟨d, hd, hholds⟩ := h.shortKeys
          refine .inr (.inr ⟨e, { w with columns := ws }, by rw [hkey], h.stage, h.output, d, hd,
            ?_⟩)
          simp only [hd, Option.bind_some, ShortKeyDraft.refusal?, hholds.finalized,
            if_neg Bool.false_ne_true] at hrefused
          by_contra hshort
          rw [if_neg hshort] at hrefused
          cases hrefused

end SegmentPlan

end Columnar
