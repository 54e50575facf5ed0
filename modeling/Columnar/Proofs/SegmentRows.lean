import Columnar.Proofs.ColumnSections
import Columnar.Segment.Writer

/-! # A segment that takes rows

While a segment takes rows, each of its columns takes the cells of its place, and the short keys are
those of the rows that begin a block. -/

namespace Columnar

namespace ShortKeyIndex

/-! ## Blocks of rows -/

theorem blocksFor_eq {n p : ℕ} (hp : 0 < p) :
    blocksFor n p = n / p + if n % p = 0 then 0 else 1 := by
  have hsplit := Nat.div_add_mod n p
  have hlt := Nat.mod_lt n hp
  rw [blocksFor, if_neg (by omega)]
  split
  next hzero =>
    rw [show n + p - 1 = p - 1 + p * (n / p) by omega, Nat.add_mul_div_left _ _ hp,
      Nat.div_eq_of_lt (by omega), Nat.zero_add, Nat.add_zero]
  next hmore =>
    rw [show n + p - 1 = n % p - 1 + p * (n / p + 1) by rw [Nat.mul_succ]; omega,
      Nat.add_mul_div_left _ _ hp, Nat.div_eq_of_lt (by omega), Nat.zero_add]

/-- A row begins a block if the rows before it fill theirs. -/
theorem blocksFor_succ {n p : ℕ} (hp : 0 < p) :
    blocksFor (n + 1) p = blocksFor n p + if n % p = 0 then 1 else 0 := by
  have hnext : blocksFor (n + 1) p = n / p + 1 := by
    rw [blocksFor, if_neg (by omega), show n + 1 + p - 1 = n + p by omega, Nat.add_div_right _ hp]
  rw [hnext, blocksFor_eq hp]
  split <;> rfl

theorem mul_lt_of_lt_blocksFor {n p b : ℕ} (hp : 0 < p) (hb : b < blocksFor n p) : b * p < n := by
  rw [blocksFor, if_neg (by omega), Nat.lt_iff_add_one_le, Nat.le_div_iff_mul_le hp,
    Nat.add_mul] at hb
  omega

theorem blocksFor_mul {n p : ℕ} (hp : 0 < p) (h : n % p = 0) : blocksFor n p * p = n := by
  rw [blocksFor_eq hp, if_pos h, Nat.add_zero]
  exact Nat.div_mul_cancel (Nat.dvd_of_mod_eq_zero h)

end ShortKeyIndex

/-- What is settled about a segment before its first row. -/
structure SegmentPlan where
  id : UInt32
  schema : Schema
  options : SegmentOptions
  rows_pos : 0 < options.maxRowsPerPage
  rows_le : options.maxRowsPerPage ≤ Page.maxRows
  block_pos : 0 < options.numRowsPerBlock
  block_lt : options.numRowsPerBlock < 2 ^ 32

/-- The field of a plan is that of its column. -/
theorem ColumnPlan.eq_of {p q : ColumnPlan} (hid : p.id = q.id) (hcolumn : p.column = q.column)
    (hoptions : p.options = q.options) (hencoding : p.format.encoding = q.format.encoding)
    (hcompression : p.format.compression = q.format.compression) : p = q := by
  have hfield : p.format.field = q.format.field := by rw [p.field_eq, q.field_eq, hcolumn]
  obtain ⟨_, _, _, ⟨_, _, _, _⟩, _, _, _⟩ := p
  obtain ⟨_, _, _, ⟨_, _, _, _⟩, _, _, _⟩ := q
  simp only at hid hcolumn hoptions hencoding hcompression hfield
  subst hid hcolumn hoptions hencoding hcompression hfield
  rfl

/-- A column together with the cells that it took. -/
structure ColumnTask where
  plan : ColumnPlan
  cells : List Cell

namespace ColumnTask

/-- The state of a writer that took the cells and takes more. -/
def Open [Lz4.Compressor] (t : ColumnTask) (w : ColumnWriter) : Prop :=
  t.plan.Holds (t.plan.runsOf t.cells) w ∧ w.finished = false

/-- The task with one more cell. -/
def push (t : ColumnTask) (c : Cell) : ColumnTask := { t with cells := t.cells ++ [c] }

/-- The column takes all the cells. -/
def Accepted (t : ColumnTask) : Prop := ∀ c ∈ t.cells, t.plan.Accepts c

theorem Accepted.push {t : ColumnTask} (h : t.Accepted) {c : Cell} (hc : t.plan.Accepts c) :
    (t.push c).Accepted := by
  intro d hd
  rcases List.mem_append.mp hd with hd | hd
  · exact h d hd
  · rw [List.mem_singleton.mp hd]
    exact hc

end ColumnTask

/-- How the pages of a column of a segment are written. -/
def SegmentOptions.format (o : SegmentOptions) (c : ColumnSchema) : PageFormat :=
  ⟨c.field, .default c.type, o.compression, Encoding.default_supports c.type⟩

namespace SegmentWriter

variable {w w' : SegmentWriter}

theorem require_eq_ok {step : String} {allowed : Segment.Stage → Bool}
    (h : require step allowed w = .ok () w') : allowed w.stage = true ∧ w = w' := by
  obtain ⟨_, w₁, hget, h⟩ := bind_eq_ok h
  cases hget
  cases hallowed : allowed w.stage with
  | false => simp only [hallowed] at h; cases h
  | true =>
      simp only [hallowed] at h
      cases h
      exact ⟨rfl, rfl⟩

/-- The first row, and then the others. -/
theorem appendAll_cons_eq_ok [Lz4.Compressor] {row : Row} {rows : List Row}
    (h : appendAll (row :: rows) w = .ok () w') :
    ∃ w₁, append row w = .ok () w₁ ∧ appendAll rows w₁ = .ok () w' := by
  simp only [appendAll] at h
  cases hrow : append row w with
  | error e w₁ => simp only [hrow] at h; cases h
  | ok _ w₁ =>
      simp only [hrow] at h
      exact ⟨w₁, rfl, h⟩

end SegmentWriter

namespace SegmentPlan

variable (plan : SegmentPlan)

/-- The column at a position. -/
def column (position : ℕ) (c : ColumnSchema) : ColumnPlan where
  id := UInt32.ofNat position
  column := c
  options := plan.options.column c
  format := plan.options.format c
  field_eq := rfl
  rows_pos := plan.rows_pos
  rows_le := plan.rows_le

/-- The columns from a position on, with the cells that rows have for them. -/
def tasksFrom : (position : ℕ) → List ColumnSchema → List Row → List ColumnTask
  | _, [], _ => []
  | position, c :: cs, rows =>
    ⟨plan.column position c, rows.map (·.head?.join)⟩ ::
      tasksFrom (position + 1) cs (rows.map List.tail)

def tasks (rows : List Row) : List ColumnTask := plan.tasksFrom 0 plan.schema.columns rows

/-- The keys of the rows that begin a block. -/
def blockKeys (rows : List Row) : List Bytes :=
  (List.range (ShortKeyIndex.blocksFor rows.length plan.options.numRowsPerBlock)).map fun b =>
    plan.schema.shortKey (rows[b * plan.options.numRowsPerBlock]?.getD [])

/-- The state of a draft that gathered keys. -/
structure HoldsKeys (keys : List Bytes) (d : ShortKeyDraft) : Prop where
  segmentId : d.segmentId = plan.id
  rowsPerBlock : d.numRowsPerBlock = UInt32.ofNat plan.options.numRowsPerBlock
  keyBytes : d.keyBytes.data.toList = keys.flatten
  offsets : d.offsets.toList.map UInt32.toNat =
    (List.range keys.length).map fun k => (keys.take k).flatten.length
  finalized : d.finalized = false

variable {plan}

/-! ## Columns and keys -/

theorem length_tasksFrom (position : ℕ) (cs : List ColumnSchema) (rows : List Row) :
    (plan.tasksFrom position cs rows).length = cs.length := by
  induction cs generalizing position rows with
  | nil => rfl
  | cons c cs ih => simp [tasksFrom, ih]

theorem cells_of_mem_tasksFrom {position : ℕ} {cs : List ColumnSchema} {t : ColumnTask}
    (h : t ∈ plan.tasksFrom position cs []) : t.cells = [] := by
  induction cs generalizing position with
  | nil => cases h
  | cons c cs ih =>
      rcases List.mem_cons.mp h with rfl | h
      · rfl
      · exact ih h

theorem blockKeys_nil (plan : SegmentPlan) : plan.blockKeys [] = [] := by
  have hpos := plan.block_pos
  have hblocks : ShortKeyIndex.blocksFor 0 plan.options.numRowsPerBlock = 0 := by
    rw [ShortKeyIndex.blocksFor, if_neg (by omega), Nat.zero_add, Nat.div_eq_of_lt (by omega)]
  rw [blockKeys, List.length_nil, hblocks]
  rfl

/-- A row adds a key if it begins a block. -/
theorem blockKeys_concat (plan : SegmentPlan) (rows : List Row) (row : Row) :
    plan.blockKeys (rows ++ [row]) =
      if rows.length % plan.options.numRowsPerBlock = 0 then
        plan.blockKeys rows ++ [plan.schema.shortKey row]
      else plan.blockKeys rows := by
  have hpos := plan.block_pos
  have hold : ∀ b < ShortKeyIndex.blocksFor rows.length plan.options.numRowsPerBlock,
      (rows ++ [row])[b * plan.options.numRowsPerBlock]? =
        rows[b * plan.options.numRowsPerBlock]? := fun b hb =>
    List.getElem?_append_left (ShortKeyIndex.mul_lt_of_lt_blocksFor hpos hb)
  have hkeys : (List.range (ShortKeyIndex.blocksFor rows.length plan.options.numRowsPerBlock)).map
      (fun b => plan.schema.shortKey
        ((rows ++ [row])[b * plan.options.numRowsPerBlock]?.getD [])) = plan.blockKeys rows :=
    List.map_congr_left fun b hb => by rw [hold b (List.mem_range.mp hb)]
  rw [blockKeys, List.length_append, List.length_singleton, ShortKeyIndex.blocksFor_succ hpos]
  split
  next hzero =>
    rw [List.range_succ, List.map_append, hkeys, List.map_singleton,
      ShortKeyIndex.blocksFor_mul hpos hzero, List.getElem?_concat_length]
    rfl
  next => exact hkeys

theorem HoldsKeys.push {keys : List Bytes} {d : ShortKeyDraft} (h : plan.HoldsKeys keys d)
    (hroom : d.refusal? = none) (key : Bytes) : plan.HoldsKeys (keys ++ [key]) (d.push key) where
  segmentId := h.segmentId
  rowsPerBlock := h.rowsPerBlock
  keyBytes := by simp [ShortKeyDraft.push, ShortKeyDraft.pushWith, h.keyBytes]
  offsets := by
    have hsize : d.keyBytes.size = keys.flatten.length := by
      rw [ByteArray.size, ← Array.length_toList, h.keyBytes]
    have hlt : d.keyBytes.size < 2 ^ 32 := by
      rw [ShortKeyDraft.refusal?, h.finalized, if_neg Bool.false_ne_true] at hroom
      split at hroom
      next => cases hroom
      next hlt => omega
    have hold : ∀ k < keys.length, ((keys ++ [key]).take k).flatten.length =
        (keys.take k).flatten.length := fun k hk => by
      rw [List.take_append_of_le_length hk.le]
    simp only [ShortKeyDraft.push, ShortKeyDraft.pushWith, Array.toList_push, List.map_append,
      h.offsets, List.map_cons, List.map_nil, List.length_append, List.length_singleton,
      List.range_succ]
    have hstart : (UInt32.ofNat d.keyBytes.size).toNat = keys.flatten.length :=
      (UInt32.toNat_ofNat_of_lt hlt).trans hsize
    rw [List.take_left, hstart]
    congr 1
    exact List.map_congr_left fun k hk => (hold k (List.mem_range.mp hk)).symm
  finalized := h.finalized

variable [Lz4.Compressor]

/-- The state of a writer that took rows and takes more. -/
structure Holds (plan : SegmentPlan) (initial : Array UInt8) (rows : List Row)
    (w : SegmentWriter) : Prop where
  schema : w.schema = plan.schema
  options : w.options = plan.options
  stage : w.stage.isOpen = true
  output : w.output = some (.memory initial)
  columns : List.Forall₂ ColumnTask.Open (plan.tasks rows) w.columns
  accepted : ∀ t ∈ plan.tasks rows, t.Accepted
  widths : ∀ row ∈ rows, row.length = plan.schema.columns.length
  shortKeys : ∃ d, w.shortKeys = some d ∧ plan.HoldsKeys (plan.blockKeys rows) d
  numRows : w.numRows = rows.length

/-! ## Getting ready -/

theorem columnWriters_eq_ok (plan : SegmentPlan) {cs : List ColumnSchema} {position : ℕ}
    {ws : List ColumnWriter}
    (h : SegmentWriter.columnWriters plan.options position cs = .ok ws) :
    List.Forall₂ ColumnTask.Open (plan.tasksFrom position cs []) ws := by
  induction cs generalizing position ws with
  | nil =>
      cases h
      exact .nil
  | cons c cs ih =>
      simp only [SegmentWriter.columnWriters] at h
      cases hnew : ColumnWriter.new (UInt32.ofNat position) c (plan.options.column c) with
      | error e => rw [hnew] at h; cases h
      | ok w =>
          rw [hnew] at h
          cases hrest : SegmentWriter.columnWriters plan.options (position + 1) cs with
          | error e => rw [hrest] at h; cases h
          | ok ws' =>
              rw [hrest] at h
              cases h
              refine .cons ?_ (ih hrest)
              obtain ⟨q, hid, hcolumn, hoptions, hencoding, hcompression, hholds, hopen⟩ :=
                ColumnPlan.new_eq_ok hnew
              have hq : q = plan.column position c := by
                refine ColumnPlan.eq_of hid hcolumn hoptions ?_ hcompression
                rw [hencoding]
                rfl
              exact ⟨hq ▸ hholds, hopen⟩

/-- Each column of a segment has pages of a length that can be decoded. -/
theorem rows_le_of_columnWriters {options : SegmentOptions} {cs : List ColumnSchema}
    {position : ℕ} {ws : List ColumnWriter} (hne : cs ≠ [])
    (h : SegmentWriter.columnWriters options position cs = .ok ws) :
    options.maxRowsPerPage ≤ Page.maxRows := by
  cases cs with
  | nil => exact absurd rfl hne
  | cons c cs =>
      simp only [SegmentWriter.columnWriters] at h
      cases hnew : ColumnWriter.new (UInt32.ofNat position) c (options.column c) with
      | error e => rw [hnew] at h; cases h
      | ok w =>
          obtain ⟨q, -, -, hoptions, -⟩ := ColumnPlan.new_eq_ok hnew
          have hle := q.rows_le
          rwa [hoptions] at hle

theorem init_eq_ok {id : UInt32} {schema : Schema} {options : SegmentOptions}
    {initial : Array UInt8} {w : SegmentWriter}
    (h : SegmentWriter.init (.ok (.memory initial)) { id, schema, options } = .ok () w) :
    ∃ plan : SegmentPlan, plan.id = id ∧ plan.schema = schema ∧ plan.options = options ∧
      plan.Holds initial [] w := by
  obtain ⟨_, w₁, hrequire, h⟩ := bind_eq_ok h
  cases hrequire
  obtain ⟨_, w₂, hget, h⟩ := bind_eq_ok h
  cases hget
  dsimp only at h
  obtain ⟨hzero, h⟩ := check_eq_ok h
  obtain ⟨hblock, h⟩ := check_eq_ok h
  cases hws : SegmentWriter.columnWriters options 0 schema.columns with
  | error e => simp only [hws] at h; cases h
  | ok ws =>
      simp only [hws] at h
      cases h
      have hle := rows_le_of_columnWriters schema.nonempty hws
      let plan : SegmentPlan := ⟨id, schema, options, by omega, hle, by omega, by omega⟩
      refine ⟨plan, rfl, rfl, rfl, rfl, rfl, rfl, rfl, plan.columnWriters_eq_ok hws, ?_, ?_, ?_,
        rfl⟩
      · intro t ht c hc
        rw [cells_of_mem_tasksFrom ht] at hc
        cases hc
      · intro row hrow
        cases hrow
      · rw [blockKeys_nil]
        exact ⟨_, rfl, rfl, rfl, rfl, rfl, rfl⟩

/-! ## One more row -/

theorem appendCells_eq_ok {cs : List ColumnSchema} {position : ℕ} {rows : List Row} {row : Row}
    {ws ws' : List ColumnWriter} (hlen : row.length = ws.length)
    (h : List.Forall₂ ColumnTask.Open (plan.tasksFrom position cs rows) ws)
    (haccepted : ∀ t ∈ plan.tasksFrom position cs rows, t.Accepted)
    (hrun : SegmentWriter.appendCells row ws = .ok () ws') :
    List.Forall₂ ColumnTask.Open (plan.tasksFrom position cs (rows ++ [row])) ws' ∧
      ∀ t ∈ plan.tasksFrom position cs (rows ++ [row]), t.Accepted := by
  induction cs generalizing position rows row ws ws' with
  | nil =>
      cases h
      cases row with
      | nil =>
          cases hrun
          exact ⟨.nil, by simp [tasksFrom]⟩
      | cons => cases hlen
  | cons c cs ih =>
      obtain ⟨w, ws, hw, hws, rfl⟩ := List.forall₂_cons_left_iff.mp h
      cases row with
      | nil => cases hlen
      | cons x row =>
          simp only [SegmentWriter.appendCells] at hrun
          cases hx : ColumnWriter.append x w with
          | error e w₁ => simp only [hx] at hrun; cases hrun
          | ok _ w₁ =>
              simp only [hx] at hrun
              cases hrest : SegmentWriter.appendCells row ws with
              | error e ws₁ => simp only [hrest] at hrun; cases hrun
              | ok _ ws₁ =>
                  simp only [hrest] at hrun
                  cases hrun
                  obtain ⟨hc, hadd, hopen⟩ := hw.1.append hw.2 hx
                  rw [← ColumnPlan.runsOf_concat] at hadd
                  obtain ⟨hall, hacc⟩ := ih (Nat.succ.inj hlen) hws
                    (fun t ht => haccepted t (List.mem_cons_of_mem _ ht)) hrest
                  simp only [tasksFrom, List.map_append, List.map_cons, List.map_nil,
                    List.head?_cons, Option.join_some, List.tail_cons]
                  refine ⟨.cons ⟨hadd, hopen⟩ hall, fun t ht => ?_⟩
                  rcases List.mem_cons.mp ht with rfl | ht
                  · exact (haccepted _ List.mem_cons_self).push hc
                  · exact hacc t ht

namespace Holds

variable {initial : Array UInt8} {rows : List Row} {w w' : SegmentWriter}

omit [Lz4.Compressor] in
theorem addKey {row : Row} (hschema : w.schema = plan.schema) (hoptions : w.options = plan.options)
    (hrows : w.numRows = rows.length)
    (hkeys : ∃ d, w.shortKeys = some d ∧ plan.HoldsKeys (plan.blockKeys rows) d)
    (hrun : SegmentWriter.addKey row w = .ok () w') :
    ∃ d, w' = { w with shortKeys := some d } ∧
      plan.HoldsKeys (plan.blockKeys (rows ++ [row])) d := by
  obtain ⟨d, hd, hholds⟩ := hkeys
  rw [blockKeys_concat]
  unfold SegmentWriter.addKey at hrun
  rw [hoptions, hrows] at hrun
  by_cases hblock : rows.length % plan.options.numRowsPerBlock = 0
  · rw [if_neg (not_not.mpr hblock), hd, Option.bind_some] at hrun
    rw [if_pos hblock]
    cases hroom : d.refusal? with
    | some e => rw [hroom] at hrun; cases hrun
    | none =>
        rw [hroom] at hrun
        cases hrun
        refine ⟨d.push (plan.schema.shortKey row), ?_, hholds.push hroom _⟩
        rw [SegmentWriter.pushKey_eq, hd, hschema]
        rfl
  · rw [if_pos hblock] at hrun
    cases hrun
    rw [if_neg hblock]
    exact ⟨d, by rw [← hd], hholds⟩

/-- A row that is taken adds a cell to each column, and a key if it begins a block. -/
theorem append (h : plan.Holds initial rows w) {row : Row}
    (hrun : SegmentWriter.append row w = .ok () w') : plan.Holds initial (rows ++ [row]) w' := by
  obtain ⟨_, w₁, hrequire, hstep⟩ := bind_eq_ok hrun
  obtain ⟨-, rfl⟩ := SegmentWriter.require_eq_ok hrequire
  obtain ⟨_, w₂, hget, hrest⟩ := bind_eq_ok hstep
  cases hget
  obtain ⟨hlen, hrest⟩ := check_eq_ok hrest
  cases hcheck : SegmentWriter.checkCells w.columns row with
  | error e => simp only [hcheck] at hrest; cases hrest
  | ok _ =>
      simp only [hcheck] at hrest
      obtain ⟨_, w₃, hcells, hrest⟩ := bind_eq_ok hrest
      obtain ⟨_, w₄, hkey, hset⟩ := bind_eq_ok hrest
      cases hset
      simp only [SegmentWriter.onColumns] at hcells
      cases hws : SegmentWriter.appendCells row w.columns with
      | error e ws => rw [hws] at hcells; cases hcells
      | ok _ ws =>
          rw [hws] at hcells
          cases hcells
          obtain ⟨hcolumns, haccepted⟩ :=
            appendCells_eq_ok (not_not.mp hlen) h.columns h.accepted hws
          obtain ⟨d, rfl, hd⟩ := addKey (w := { w with columns := ws })
            h.schema h.options h.numRows h.shortKeys hkey
          have hwidth : row.length = plan.schema.columns.length := by
            rw [not_not.mp hlen, ← h.columns.length_eq]
            exact length_tasksFrom _ _ _
          refine ⟨h.schema, h.options, rfl, h.output, hcolumns, haccepted, fun row' hrow' => ?_,
            ⟨d, rfl, hd⟩, by simp [h.numRows]⟩
          rcases List.mem_append.mp hrow' with hrow' | hrow'
          · exact h.widths row' hrow'
          · rwa [List.mem_singleton.mp hrow']

theorem appendAll {more : List Row} (h : plan.Holds initial rows w)
    (hrun : SegmentWriter.appendAll more w = .ok () w') :
    plan.Holds initial (rows ++ more) w' := by
  induction more generalizing w rows with
  | nil =>
      cases hrun
      simpa using h
  | cons row more ih =>
      obtain ⟨w₁, hrow, hrest⟩ := SegmentWriter.appendAll_cons_eq_ok hrun
      have hall := ih (h.append hrow) hrest
      rwa [List.append_assoc] at hall

end Holds

end SegmentPlan

end Columnar
