import Columnar.Column.Scan
import Columnar.Proofs.ColumnReading

/-! # Scanning a column

A scan keeps the page that it decoded last, but what it takes from a page is as if it decoded the
page anew. -/

namespace Columnar

/-! ## The cells of a page -/

namespace Page

private theorem length_weaveOnto (nulls : List Bool) : ∀ values done,
    (weaveOnto nulls values done).length = done.length + nulls.length := by
  induction nulls with
  | nil =>
      intro values done
      simp [weaveOnto]
  | cons null nulls ih =>
      intro values done
      cases null <;> cases values <;> simp [weaveOnto, ih] <;> omega

theorem length_weave (nulls : List Bool) (values : List Value) :
    (weave nulls values).length = nulls.length := by
  rw [weave, length_weaveOnto, List.length_nil, Nat.zero_add]

theorem length_of_decodeNulls {rows : ℕ} {nulls : List Bool} {bs rest : Bytes}
    (h : decodeNulls rows bs = .ok nulls rest) : nulls.length = rows := by
  obtain ⟨hasNulls, _, -, h⟩ := bind_eq_ok h
  cases hasNulls with
  | false =>
      cases h
      exact List.length_replicate
  | true =>
      obtain ⟨bitmap, _, -, h⟩ := bind_eq_ok h
      cases h
      rw [List.length_map, unpack_eq, length_lowDigits]

theorem length_of_decodeBody {f : Field} {e : Encoding} {rows : ℕ} {cells : List Cell}
    {bs rest : Bytes} (h : decodeBody f e rows bs = .ok cells rest) : cells.length = rows := by
  obtain ⟨count, _, -, h⟩ := bind_eq_ok h
  obtain ⟨-, h⟩ := check_eq_ok h
  obtain ⟨nulls, _, hnulls, h⟩ := bind_eq_ok h
  obtain ⟨values, _, -, h⟩ := bind_eq_ok h
  obtain ⟨left, _, -, h⟩ := bind_eq_ok h
  obtain ⟨-, h⟩ := check_eq_ok h
  cases h
  rw [length_weave, length_of_decodeNulls hnulls]

theorem of_stripChecksum_eq_ok {raw compressed : Bytes} {verify : Bool}
    (h : stripChecksum raw verify = .ok compressed) :
    compressed = raw.take (raw.length - 4) := by
  rw [stripChecksum] at h
  dsimp only at h
  repeat' split at h
  all_goals cases h
  all_goals rfl

/-- A page that reads has a body that reads, whether its checksum is compared or not. -/
theorem of_decode_eq_ok {f : PageFormat} {raw : Bytes} {rows : ℕ} {verify : Bool}
    {cells : List Cell} (h : decode f raw rows verify = .ok cells) :
    rows ≤ maxRows ∧ ∃ body rest, f.compression.decompress (raw.take (raw.length - 4)) = .ok body ∧
      decodeBody f.field f.encoding rows body = .ok cells rest := by
  obtain ⟨hrows, h⟩ := of_check_eq_ok h
  obtain ⟨compressed, hstrip, h⟩ := of_bind_eq_ok h
  obtain rfl := of_stripChecksum_eq_ok hstrip
  obtain ⟨body, hbody, h⟩ := of_bind_eq_ok h
  split at h
  next found rest hfound =>
    cases h
    exact ⟨Nat.le_of_not_lt hrows, body, rest, hbody, hfound⟩
  next => cases h

/-- A page that reads has as many cells as were asked for. -/
theorem length_of_decode {f : PageFormat} {raw : Bytes} {rows : ℕ} {verify : Bool}
    {cells : List Cell} (h : decode f raw rows verify = .ok cells) : cells.length = rows := by
  obtain ⟨-, body, rest, -, hbody⟩ := of_decode_eq_ok h
  exact length_of_decodeBody hbody

end Page

/-! ## The page of a row -/

namespace OrdinalIndex

variable {x : OrdinalIndex} {k first stop : ℕ}

theorem range?_eq_some (h : x.range? k = some (first, stop)) :
    x.first? k = some first ∧ stop = (x.first? (k + 1)).getD x.numRows := by
  obtain ⟨a, ha, heq⟩ := Option.map_eq_some_iff.mp h
  cases heq
  exact ⟨ha, rfl⟩

/-- The range of a page holds a row at least, and no row that there is not. -/
theorem range?_bounds (h : Ordered x.numRows x.entries.toList)
    (hk : x.range? k = some (first, stop)) : first < stop ∧ stop ≤ x.numRows := by
  obtain ⟨hfirst, rfl⟩ := range?_eq_some hk
  have hbelow : ∀ {i a : ℕ}, x.first? i = some a → a < x.numRows := by
    intro i a hi
    obtain ⟨e, he, rfl⟩ := Option.map_eq_some_iff.mp hi
    exact h.below e (Array.mem_toList_iff.mpr (Array.mem_of_getElem? he))
  cases hnext : x.first? (k + 1) with
  | none => exact ⟨hbelow hfirst, le_rfl⟩
  | some next => exact ⟨first?_lt h k.lt_succ_self hfirst hnext, (hbelow hnext).le⟩

/-- The range of a page ends before that of any page behind it begins. -/
theorem stop_le (h : Ordered x.numRows x.entries.toList) {l first' stop' : ℕ}
    (hk : x.range? k = some (first, stop)) (hl : x.range? l = some (first', stop')) (hkl : k < l) :
    stop ≤ first' := by
  obtain ⟨-, rfl⟩ := range?_eq_some hk
  obtain ⟨hfirst, -⟩ := range?_eq_some hl
  obtain ⟨next, hnext⟩ := first?_isSome
    (Nat.lt_of_le_of_lt (Nat.succ_le_of_lt hkl) (lt_numPages_of_first? hfirst))
  rw [hnext, Option.getD_some]
  rcases Nat.lt_or_eq_of_le (Nat.succ_le_of_lt hkl) with hlt | heq
  · exact (first?_lt h hlt hnext hfirst).le
  · rw [← heq, Nat.succ_eq_add_one, hnext] at hfirst
    exact (Option.some.inj hfirst).le

/-- The search ends at the only page whose range holds the row. -/
theorem findPage_eq (h : Ordered x.numRows x.entries.toList) {ordinal : ℕ}
    (hord : ordinal < x.numRows) (hk : x.range? k = some (first, stop)) (hfirst : first ≤ ordinal)
    (hstop : ordinal < stop) : x.findPage ordinal = k := by
  obtain ⟨first', stop', hfound, hfirst', hstop'⟩ := findPage_spec h hord
  rcases Nat.lt_trichotomy (x.findPage ordinal) k with hlt | heq | hgt
  · have hle := stop_le h hfound hk hlt
    omega
  · exact heq
  · have hle := stop_le h hk hfound hgt
    omega

end OrdinalIndex

namespace Column

/-- The ordinal index is that of the rows of the column. -/
structure Indexed (c : Column) : Prop where
  rows : c.index.numRows = c.numRows
  ordered : OrdinalIndex.Ordered c.index.numRows c.index.entries.toList

/-- The cell of a row, from the page with that row. -/
def cellAt (c : Column) (ordinal : ℕ) : Except Error Cell := do
  let page := c.index.findPage ordinal
  let cells ← c.readPage page
  return cells[ordinal - (c.index.first? page).getD 0]?.join

/-- A page that holds the row reads, and this is the cell of the row there. -/
def HasCell (c : Column) (ordinal : ℕ) (cell : Cell) : Prop :=
  ∃ page first stop cells, c.index.range? page = some (first, stop) ∧ first ≤ ordinal ∧
    ordinal < stop ∧ c.readPage page = .ok cells ∧ cells[ordinal - first]? = some cell

/-- The cells of `n` rows from an ordinal on, each from its page. -/
def cellsFrom (c : Column) (ordinal n : ℕ) : Except Error (List Cell) :=
  (List.range' ordinal n).mapM c.cellAt

theorem length_of_readPage {c : Column} {k first stop : ℕ} {cells : List Cell}
    (hk : c.index.range? k = some (first, stop)) (h : c.readPage k = .ok cells) :
    cells.length = stop - first := by
  unfold readPage at h
  rw [hk] at h
  cases he : c.index.entries[k]? with
  | none => rw [he] at h; cases h
  | some e =>
      rw [he] at h
      cases hraw : c.file.read e.pointer with
      | error err => simp only [hraw] at h; cases h
      | ok raw =>
          simp only [hraw] at h
          exact Page.length_of_decode h

theorem Indexed.page_eq {c : Column} (h : c.Indexed) {ordinal k first stop : ℕ}
    (hord : ordinal < c.numRows) (hk : c.index.range? k = some (first, stop))
    (hfirst : first ≤ ordinal) (hstop : ordinal < stop) : c.index.findPage ordinal = k :=
  OrdinalIndex.findPage_eq h.ordered (h.rows ▸ hord) hk hfirst hstop

theorem Indexed.cellAt_eq_ok_iff {c : Column} (h : c.Indexed) {ordinal : ℕ} {cell : Cell}
    (hord : ordinal < c.numRows) : c.cellAt ordinal = .ok cell ↔ c.HasCell ordinal cell := by
  constructor
  · intro hcell
    obtain ⟨first, stop, hrange, hfirst, hstop⟩ :=
      OrdinalIndex.findPage_spec h.ordered (h.rows ▸ hord)
    obtain ⟨cells, hread, hcell⟩ := of_bind_eq_ok hcell
    have hlen := length_of_readPage hrange hread
    have hlt : ordinal - first < cells.length := by omega
    rw [(OrdinalIndex.range?_eq_some hrange).1, Option.getD_some,
      List.getElem?_eq_getElem hlt] at hcell
    cases hcell
    exact ⟨_, first, stop, cells, hrange, hfirst, hstop, hread, List.getElem?_eq_getElem hlt⟩
  · rintro ⟨page, first, stop, cells, hrange, hfirst, hstop, hread, hcell⟩
    rw [cellAt, h.page_eq hord hrange hfirst hstop, (OrdinalIndex.range?_eq_some hrange).1,
      Option.getD_some]
    exact bind_of_eq_ok hread (by rw [hcell]; rfl)

theorem cellsFrom_succ (c : Column) (ordinal n : ℕ) :
    c.cellsFrom ordinal (n + 1) = (do
      let cell ← c.cellAt ordinal
      let cells ← c.cellsFrom (ordinal + 1) n
      return cell :: cells) := by
  rw [cellsFrom, List.range'_succ, List.mapM_cons]
  rfl

theorem getElem?_of_cellsFrom {c : Column} {ordinal n : ℕ} {cells : List Cell}
    (h : c.cellsFrom ordinal n = .ok cells) :
    cells.length = n ∧ ∀ i cell, cells[i]? = some cell → c.cellAt (ordinal + i) = .ok cell := by
  induction n generalizing ordinal cells with
  | zero =>
      cases h
      exact ⟨rfl, by simp⟩
  | succ n ih =>
      rw [cellsFrom_succ] at h
      obtain ⟨first, hfirst, h⟩ := of_bind_eq_ok h
      obtain ⟨rest, hrest, h⟩ := of_bind_eq_ok h
      cases h
      obtain ⟨hlen, hcells⟩ := ih hrest
      refine ⟨congrArg Nat.succ hlen, fun i cell hi => ?_⟩
      cases i with
      | zero =>
          cases hi
          exact hfirst
      | succ i => rw [← hcells i cell hi, Nat.add_right_comm, Nat.add_assoc]

/-- The cells of rows of one page are read in one piece. -/
theorem Indexed.cellsFrom_eq_ok {c : Column} (h : c.Indexed) {ordinal n k first stop : ℕ}
    {cells : List Cell} (hk : c.index.range? k = some (first, stop))
    (hread : c.readPage k = .ok cells) (hfirst : first ≤ ordinal) (hstop : ordinal + n ≤ stop)
    (hrows : ordinal + n ≤ c.numRows) :
    c.cellsFrom ordinal n = .ok ((cells.drop (ordinal - first)).take n) := by
  have hlen := length_of_readPage hk hread
  induction n generalizing ordinal with
  | zero => rw [List.take_zero]; rfl
  | succ n ih =>
      have hpage : c.index.findPage ordinal = k := h.page_eq (by omega) hk hfirst (by omega)
      have hlt : ordinal - first < cells.length := by omega
      have hcell : c.cellAt ordinal = .ok cells[ordinal - first] := by
        rw [cellAt, hpage, (OrdinalIndex.range?_eq_some hk).1, Option.getD_some]
        apply bind_of_eq_ok hread
        rw [List.getElem?_eq_getElem hlt]
        rfl
      have hrest := @ih (ordinal + 1) (by omega) (by omega) (by omega)
      rw [cellsFrom_succ, hcell]
      refine bind_of_eq_ok rfl (bind_of_eq_ok hrest ?_)
      rw [List.drop_eq_getElem_cons hlt, List.take_succ_cons, Nat.sub_add_comm hfirst]
      rfl

end Column

/-! ## The page that is kept -/

/-- The page is one of the column. -/
structure CachedPage.Of (c : Column) (page : CachedPage) : Prop where
  first : c.index.first? page.index = some page.first
  cells : c.readPage page.index = .ok page.cells.toList

namespace Scan

variable {s s' : Scan}

/-- The column has its index, and the page that is kept is one of the column. -/
structure Sound (s : Scan) : Prop where
  indexed : s.column.Indexed
  kept : ∀ page ∈ s.cached, page.Of s.column

/-- A page that is kept is what decoding the page of the row again would give. -/
theorem load_eq_reload (h : s.Sound) {ordinal : ℕ} (hord : ordinal < s.column.numRows) :
    load ordinal s = reload ordinal s := by
  cases hcached : s.cached with
  | none => rw [load, hcached]
  | some page =>
      obtain ⟨hfirst, hread⟩ := h.kept page hcached
      obtain ⟨stop, hrange⟩ : ∃ stop, s.column.index.range? page.index = some (page.first, stop) :=
        ⟨_, by rw [OrdinalIndex.range?, hfirst]; rfl⟩
      have hlen := Column.length_of_readPage hrange hread
      rw [Array.length_toList] at hlen
      simp only [load, hcached]
      by_cases hhit : page.contains ordinal = true
      · rw [if_pos hhit]
        simp only [CachedPage.contains, Bool.and_eq_true, decide_eq_true_eq] at hhit
        have hpage := h.indexed.page_eq hord hrange hhit.1 (by omega)
        simp only [reload, hpage, hread, hfirst, Option.getD_some, Array.toArray_toList]
        rw [← hcached]
      · rw [if_neg hhit]

/-- The page of a row is decoded, or comes out as it would. -/
theorem load_eq_ok (h : s.Sound) {ordinal first stop : ℕ} {cells : List Cell}
    (hord : ordinal < s.column.numRows)
    (hrange : s.column.index.range? (s.column.index.findPage ordinal) = some (first, stop))
    (hread : s.column.readPage (s.column.index.findPage ordinal) = .ok cells) :
    ∃ page : CachedPage, load ordinal s = .ok page { s with cached := some page } ∧
      page.first = first ∧ page.cells = cells.toArray ∧ page.Of s.column := by
  have hfirst := (OrdinalIndex.range?_eq_some hrange).1
  refine ⟨⟨s.column.index.findPage ordinal, first, cells.toArray⟩, ?_, rfl, rfl, hfirst, ?_⟩
  · rw [load_eq_reload h hord, reload, hread, hfirst]
    rfl
  · simpa using hread

/-- What is taken from the page of a row is a piece of the column, and is not empty. -/
theorem load_cells (h : s.Sound) {ordinal want : ℕ} (hwant : 0 < want)
    (hrows : ordinal + want ≤ s.column.numRows) {cells : List Cell}
    (hread : s.column.readPage (s.column.index.findPage ordinal) = .ok cells) :
    ∃ (page : CachedPage) (taken : List Cell),
      load ordinal s = .ok page { s with cached := some page } ∧ page.Of s.column ∧
        page.cellsFrom ordinal want = taken.toArray ∧ 0 < taken.length ∧ taken.length ≤ want ∧
          s.column.cellsFrom ordinal taken.length = .ok taken := by
  have hord : ordinal < s.column.numRows := by omega
  obtain ⟨first, stop, hrange, hfirst, hstop⟩ :=
    OrdinalIndex.findPage_spec h.indexed.ordered (h.indexed.rows ▸ hord)
  obtain ⟨page, hload, hpfirst, hpcells, hpage⟩ := load_eq_ok h hord hrange hread
  have hlen := Column.length_of_readPage hrange hread
  let taken := (cells.drop (ordinal - first)).take want
  have hcount : taken.length = min want (stop - ordinal) := by
    simp only [taken, List.length_take, List.length_drop, hlen]
    omega
  refine ⟨page, taken, hload, hpage, ?_, by omega, by omega, ?_⟩
  · rw [CachedPage.cellsFrom, hpfirst, hpcells, List.extract_toArray, List.extract_eq_take_drop,
      Nat.add_sub_cancel_left]
  · rw [h.indexed.cellsFrom_eq_ok hrange hread hfirst (by omega) (by omega)]
    simp only [taken, List.length_take, ← List.take_eq_take_min]

theorem load_eq_error (h : s.Sound) {ordinal : ℕ} {e : Error} (hord : ordinal < s.column.numRows)
    (hread : s.column.readPage (s.column.index.findPage ordinal) = .error e) :
    load ordinal s = .error e { s with cached := none } := by
  rw [load_eq_reload h hord, reload, hread]

theorem Sound.keep (h : s.Sound) {page : CachedPage} (hpage : page.Of s.column) (ordinal : ℕ) :
    Sound { s with ordinal, cached := some page } :=
  ⟨h.indexed, fun p hp => by
    obtain rfl := Option.some.inj hp
    exact hpage⟩

end Scan

end Columnar
