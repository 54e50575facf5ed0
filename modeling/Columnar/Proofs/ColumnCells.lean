import Columnar.Column.Writer
import Columnar.Proofs.PageRoundTrip
import Columnar.Proofs.PageRuns

/-! # A column that takes cells

While a column takes cells, the state of its writer is a function of the cells, up to the bytes of
the closed pages, each of which is the page of its run. -/

namespace Columnar

/-- What a run gives, and the state behind it, unless it fails. -/
def outcome? {ε σ α : Type} : EStateM.Result ε σ α → Option (α × σ)
  | .ok a s => some (a, s)
  | .error .. => none

theorem eq_ok_of_outcome? {ε σ α : Type} {r : EStateM.Result ε σ α} {a : α} {s : σ}
    (h : outcome? r = some (a, s)) : r = .ok a s := by
  cases r <;> cases h
  rfl

/-- Why a run fails, and the state behind it, if it does. -/
def failure? {ε σ α : Type} : EStateM.Result ε σ α → Option (ε × σ)
  | .ok .. => none
  | .error e s => some (e, s)

theorem eq_error_of_failure? {ε σ α : Type} {r : EStateM.Result ε σ α} {e : ε} {s : σ}
    (h : failure? r = some (e, s)) : r = .error e s := by
  cases r <;> cases h
  rfl

theorem eq_ok_of_toOption {ε α : Type} {x : Except ε α} {a : α} (h : x.toOption = some a) :
    x = .ok a := by
  cases x <;> cases h
  rfl

/-- The bytes of a file, if it is in memory. -/
def OutputFile.bytes? : OutputFile → Option (Array UInt8)
  | .memory bytes => some bytes
  | .disk .. => none

theorem OutputFile.eq_memory_of_bytes? {file : OutputFile} {bytes : Array UInt8}
    (h : file.bytes? = some bytes) : file = .memory bytes := by
  cases file <;> cases h
  rfl

/-- What is settled about a column before its first cell. -/
structure ColumnPlan where
  id : UInt32
  column : ColumnSchema
  options : ColumnOptions
  format : PageFormat
  field_eq : format.field = column.field
  rows_pos : 0 < options.maxRowsPerPage
  rows_le : options.maxRowsPerPage ≤ Page.maxRows

namespace ColumnPlan

variable (plan : ColumnPlan)

/-- What the footer says before there are cells. -/
def entry : ColumnMeta :=
  .new plan.id plan.column plan.format.encoding plan.format.compression

/-- The column takes the cell. -/
def Accepts (c : Cell) : Prop := plan.entry.check c = .ok ()

/-- The cells of the closed and the open pages. -/
def runsOf (cells : List Cell) : Page.Runs := Page.runsOf plan.format plan.options cells

/-- The cells of each page in the end. -/
def runs (cells : List Cell) : List (List Cell) := (plan.runsOf cells).close.closed

/-- The zone map that is stored for a run. -/
def zoneMap (cells : List Cell) : ZoneMap :=
  (ZoneMap.ofCells cells).truncated plan.options.zoneMapMaxStringLength

/-- What is gathered for the zone maps, if the column has any. -/
def zoneMaps (r : Page.Runs) : Option ZoneMapDraft :=
  if plan.options.needZoneMap then
    some {
      maxLength := plan.options.zoneMapMaxStringLength
      page := .ofCells r.current
      all := .ofCells r.cells
      records := (r.closed.map fun run => (plan.zoneMap run).encodeRecord).toArray }
  else none

variable {plan}

theorem Accepts.admits {v : Value} (h : plan.Accepts (some v)) : plan.format.field.Admits v := by
  rw [plan.field_eq]
  exact h

theorem takes_of_accepts {cells : List Cell} (h : ∀ c ∈ cells, plan.Accepts c) :
    Page.Takes plan.format.field plan.format.encoding cells := fun v hv =>
  (h (some v) hv).admits.holds _

theorem flatten_runs (plan : ColumnPlan) (cells : List Cell) : (plan.runs cells).flatten = cells :=
  Page.flatten_runs plan.format plan.options cells

theorem mem_runs {cells run : List Cell} (h : run ∈ plan.runs cells) :
    run ≠ [] ∧ run.length ≤ plan.options.maxRowsPerPage :=
  Page.mem_runs plan.format plan.rows_pos h

theorem runsOf_concat (plan : ColumnPlan) (cells : List Cell) (c : Cell) :
    plan.runsOf (cells ++ [c]) = (plan.runsOf cells).add plan.format plan.options c := by
  simp [runsOf, Page.runsOf]

/-! ## States -/

variable [Lz4.Compressor]

/-- The page is that of the run, and knows what stands before it. -/
def IsPage (plan : ColumnPlan) (page : ClosedPage) (run : ℕ × List Cell) : Prop :=
  page.firstOrdinal = UInt64.ofNat run.1 ∧ Page.encode plan.format run.2 = .ok page.bytes

/-- The state of a writer that gathers the pages of `r`. -/
structure Holds (plan : ColumnPlan) (r : Page.Runs) (w : ColumnWriter) : Prop where
  entry : w.entry = { plan.entry with numRows := UInt64.ofNat r.cells.length }
  options : w.options = plan.options
  page : w.page = .of plan.format r.current
  zoneMaps : w.zoneMaps = plan.zoneMaps r
  closed : List.Forall₂ plan.IsPage w.closed.toList (Page.numbered 0 r.closed)
  index : w.index = #[]
  pageFirst : w.pageFirst = UInt64.ofNat r.closed.flatten.length

/-! ## Single steps -/

theorem new_eq_ok {id : UInt32} {c : ColumnSchema} {o : ColumnOptions} {w : ColumnWriter}
    (h : ColumnWriter.new id c o = .ok w) :
    ∃ plan : ColumnPlan, plan.id = id ∧ plan.column = c ∧ plan.options = o ∧
      plan.format.encoding = o.encoding.getD (Encoding.default c.type) ∧
      plan.format.compression = o.compression ∧ plan.Holds {} w ∧ w.finished = false := by
  unfold ColumnWriter.new at h
  by_cases hlimit : o.maxRowsPerPage = 0 ∨ Page.maxRows < o.maxRowsPerPage
  · rw [if_pos hlimit] at h
    cases h
  · rw [if_neg hlimit] at h
    dsimp only at h
    by_cases hs : (o.encoding.getD (Encoding.default c.type)).supports c.field.type = true
    · rw [PageFormat.new, dif_pos hs] at h
      cases h
      exact ⟨⟨id, c, o, ⟨c.field, _, o.compression, hs⟩, rfl, by omega, by omega⟩,
        rfl, rfl, rfl, rfl, rfl, ⟨rfl, rfl, rfl, rfl, .nil, rfl, rfl⟩, rfl⟩
    · rw [PageFormat.new, dif_neg hs] at h
      cases h

/-- Refused cells change nothing; others are added, and the page is closed if it is full then. -/
theorem append_eq (c : Cell) (w : ColumnWriter) :
    ColumnWriter.append c w =
      if w.finished then .error (.state (.columnFinished w.entry.id.toNat)) w
      else match w.check c with
        | .error e => .error e w
        | .ok _ =>
          if (w.add c).isPageFull then ColumnWriter.closePage (w.add c) else .ok () (w.add c) := by
  cases hf : w.finished <;> cases hc : w.check c <;>
    cases hp : (w.add c).isPageFull <;>
      simp [ColumnWriter.append, hf, hc, hp, get_bind, set_bind, throw_bind,
        pure_apply]

namespace Holds

variable {r : Page.Runs} {w w' : ColumnWriter}

theorem check (h : plan.Holds r w) (c : Cell) : w.check c = plan.entry.check c := by
  rw [ColumnWriter.check, h.entry]
  cases c <;> rfl

theorem isPageFull (h : plan.Holds r w) :
    w.isPageFull = Page.full plan.format plan.options r.current := by
  rw [ColumnWriter.isPageFull, h.page, h.options, Page.full]

theorem add (h : plan.Holds r w) (c : Cell) : plan.Holds (r.push c) (w.add c) where
  entry := by
    rw [ColumnWriter.add, h.entry, Page.Runs.cells_push]
    simp [UInt64.ofNat_add]
  options := h.options
  page := by rw [ColumnWriter.add, h.page, Page.Draft.add_of]; rfl
  zoneMaps := by
    rw [ColumnWriter.add, h.zoneMaps, ColumnPlan.zoneMaps, ColumnPlan.zoneMaps]
    split
    next =>
      simp only [Option.map_some, ZoneMapDraft.add, Page.Runs.cells_push, ZoneMap.ofCells]
      simp [Page.Runs.push]
    next => rfl
  closed := h.closed
  index := h.index
  pageFirst := h.pageFirst

/-- The page that is closed becomes that of its run. -/
theorem closePage (h : plan.Holds r w) (hrun : ColumnWriter.closePage w = .ok () w') :
    plan.Holds r.close w' ∧ w'.finished = w.finished := by
  unfold ColumnWriter.closePage at hrun
  rw [h.page, Page.Draft.isEmpty_of, Page.Draft.close_of] at hrun
  by_cases hempty : r.current = []
  · rw [hempty, if_pos List.isEmpty_nil] at hrun
    cases hrun
    rw [Page.Runs.close, if_pos hempty]
    exact ⟨h, rfl⟩
  · rw [if_neg (by simpa using hempty)] at hrun
    cases hpage : Page.encode plan.format r.current with
    | error e => rw [hpage] at hrun; cases hrun
    | ok bytes =>
        rw [hpage] at hrun
        cases hrun
        have hcells := r.cells_close
        rw [Page.Runs.close, if_neg hempty] at hcells ⊢
        refine ⟨⟨?_, h.options, rfl, ?_, ?_, h.index, ?_⟩, rfl⟩
        · rw [hcells]
          exact h.entry
        · rw [ColumnWriter.pushPage, h.zoneMaps, ColumnPlan.zoneMaps, ColumnPlan.zoneMaps, hcells]
          split
          next => simp [ZoneMapDraft.flush, ZoneMap.ofCells, zoneMap]
          next => rfl
        · rw [ColumnWriter.pushPage, Array.toList_push, Page.numbered_append, h.pageFirst]
          refine List.rel_append h.closed (.cons ⟨?_, hpage⟩ .nil)
          simp
        · rw [ColumnWriter.pushPage, h.entry]
          simp [Page.Runs.cells]

theorem append (h : plan.Holds r w) (hopen : w.finished = false) {c : Cell}
    (hrun : ColumnWriter.append c w = .ok () w') :
    plan.Accepts c ∧ plan.Holds (r.add plan.format plan.options c) w' ∧ w'.finished = false := by
  rw [append_eq, hopen, if_neg Bool.false_ne_true, h.check] at hrun
  cases hcheck : plan.entry.check c with
  | error e => rw [hcheck] at hrun; cases hrun
  | ok _ =>
      rw [hcheck] at hrun
      refine ⟨hcheck, ?_⟩
      have hadd := h.add c
      simp only [hadd.isPageFull] at hrun
      rw [Page.Runs.add]
      split at hrun
      next hfull =>
        obtain ⟨hclosed, hfinished⟩ := hadd.closePage hrun
        rw [if_pos hfull]
        exact ⟨hclosed, hfinished.trans hopen⟩
      next hfull =>
        cases hrun
        rw [if_neg hfull]
        exact ⟨hadd, hopen⟩

/-! ## Runs of the writer -/

theorem appendAll {before : List Cell} (h : plan.Holds (plan.runsOf before) w)
    (hopen : w.finished = false) {cells : List Cell}
    (hrun : ColumnWriter.appendAll cells w = .ok () w') :
    (∀ c ∈ cells, plan.Accepts c) ∧ plan.Holds (plan.runsOf (before ++ cells)) w' ∧
      w'.finished = false := by
  induction cells generalizing w before with
  | nil =>
      cases hrun
      exact ⟨by simp, by simpa using h, hopen⟩
  | cons c cells ih =>
      simp only [ColumnWriter.appendAll] at hrun
      cases hc : ColumnWriter.append c w with
      | error e w₁ => rw [hc] at hrun; cases hrun
      | ok _ w₁ =>
          simp only [hc] at hrun
          obtain ⟨hcheck, hadd, hopen₁⟩ := h.append hopen hc
          rw [← runsOf_concat] at hadd
          obtain ⟨hall, hholds, hopen'⟩ := ih hadd hopen₁ hrun
          rw [List.append_assoc] at hholds
          exact ⟨List.forall_mem_cons.mpr ⟨hcheck, hall⟩, hholds, hopen'⟩

theorem finish (h : plan.Holds r w) (hrun : ColumnWriter.finish w = .ok () w') :
    plan.Holds r.close w' ∧ w'.finished = true := by
  obtain ⟨_, w₁, hclose, hset⟩ := bind_eq_ok hrun
  cases hset
  obtain ⟨hholds, -⟩ := h.closePage hclose
  exact ⟨⟨hholds.entry, hholds.options, hholds.page, hholds.zoneMaps, hholds.closed,
    hholds.index, hholds.pageFirst⟩, rfl⟩

end Holds

end ColumnPlan

end Columnar
