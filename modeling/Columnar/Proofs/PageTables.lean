import Columnar.Proofs.ColumnScan
import Columnar.Proofs.IndexParsing

/-! # Page tables

A page table is a count and as many lines of bytes, whose ordinals are in order. Exactly the page
tables are accepted as ordinal indexes, and what is accepted tells for each row the one page that
holds it. -/

namespace Columnar

/-! ## Lines -/

namespace PageEntry

/-- The number that the first eight bytes of a line spell. -/
def lineOrdinal (line : Bytes) : ℕ := Bytes.toNat (line.take 8)

/-- The entry that a line of twenty bytes spells. -/
def ofLine (line : Bytes) : PageEntry where
  firstOrdinal := UInt64.ofNat (lineOrdinal line)
  pointer :=
    { offset := UInt64.ofNat (Bytes.toNat ((line.drop 8).take 8))
      size := UInt32.ofNat (Bytes.toNat (line.drop 16)) }

@[simp] theorem lineOrdinal_encode (e : PageEntry) :
    lineOrdinal e.encode = e.firstOrdinal.toNat := by
  rw [lineOrdinal, encode, List.append_assoc, List.take_left' (Bytes.length_little ..),
    Bytes.toNat_little_of_lt e.firstOrdinal.toNat_lt]

/-- Whatever twenty bytes a line has, it is the stored form of an entry. -/
theorem encode_ofLine {line : Bytes} (h : line.length = size) : (ofLine line).encode = line := by
  have hword : ∀ (k : ℕ) (bs : Bytes), bs.length = k →
      bs.toNat < 256 ^ k ∧ Bytes.little k bs.toNat = bs := by
    rintro k bs rfl
    exact ⟨bs.toNat_lt, bs.little_toNat⟩
  rw [size] at h
  obtain ⟨hfirst, hfirst'⟩ := hword 8 (line.take 8) (by simp [h])
  obtain ⟨hoffset, hoffset'⟩ := hword 8 ((line.drop 8).take 8) (by simp [h])
  obtain ⟨hsize, hsize'⟩ := hword 4 (line.drop 16) (by simp [h])
  rw [encode, ofLine, lineOrdinal]
  simp only [UInt64.toNat_ofNat_of_lt' hfirst, UInt64.toNat_ofNat_of_lt' hoffset,
    UInt32.toNat_ofNat_of_lt' hsize, hfirst', hoffset', hsize']
  have hdrop : line.drop 16 = (line.drop 8).drop 8 := by simp
  rw [hdrop, List.append_assoc, List.take_append_drop, List.take_append_drop]

end PageEntry

namespace OrdinalIndex

open PageEntry (lineOrdinal)

/-- A count and as many lines of twenty bytes. The pages begin at row 0, each behind the one before
and below the number of rows, and there are pages if there are rows. -/
structure IsPageTable (numRows : ℕ) (data : Bytes) (lines : List Bytes) : Prop where
  bytes : data = Bytes.little 4 lines.length ++ lines.flatten
  count : lines.length < 2 ^ 32
  width : ∀ line ∈ lines, line.length = 20
  head : ∀ line ∈ lines.head?, lineOrdinal line = 0
  ascending : lines.Pairwise fun line next => lineOrdinal line < lineOrdinal next
  below : ∀ line ∈ lines, lineOrdinal line < numRows
  nil_iff : lines = [] ↔ numRows = 0

variable {numRows : ℕ} {data : Bytes} {lines : List Bytes}

/-- The stored form of entries is a page table exactly if the entries are in order. -/
theorem isPageTable_iff {entries : List PageEntry} :
    IsPageTable numRows data (entries.map PageEntry.encode) ↔
      entries.length < 2 ^ 32 ∧ Ordered numRows entries ∧ data = encode entries := by
  have hbytes : Bytes.little 4 (entries.map PageEntry.encode).length ++
      (entries.map PageEntry.encode).flatten = encode entries := by
    rw [encode, List.length_map, List.flatMap_def]
  constructor
  · intro h
    refine ⟨by simpa using h.count, ⟨?_, ?_, ?_, ?_⟩, h.bytes.trans hbytes⟩
    · simpa using h.head
    · simpa [List.pairwise_map] using h.ascending
    · simpa using h.below
    · simpa using h.nil_iff
  · rintro ⟨hcount, hordered, rfl⟩
    refine ⟨hbytes.symm, by simpa using hcount, ?_, ?_, ?_, ?_, ?_⟩
    · simp [PageEntry.size]
    · simpa using hordered.head
    · simpa [List.pairwise_map] using hordered.ascending
    · simpa using hordered.below
    · simpa using hordered.nil_iff

theorem IsPageTable.map_ofLine (h : IsPageTable numRows data lines) :
    (lines.map PageEntry.ofLine).map PageEntry.encode = lines := by
  rw [List.map_map]
  calc lines.map (PageEntry.encode ∘ PageEntry.ofLine)
      = lines.map id :=
        List.map_congr_left fun line hline => PageEntry.encode_ofLine (h.width line hline)
    _ = lines := List.map_id lines

/-- Page tables are accepted, and nothing else is. -/
theorem exists_parse_iff : (∃ x, parse data numRows = .ok x) ↔
    ∃ lines, IsPageTable numRows data lines := by
  constructor
  · rintro ⟨x, hx⟩
    obtain ⟨-, hcount, hordered, hdata⟩ := parse_eq_ok_iff.mp hx
    exact ⟨_, isPageTable_iff.mpr ⟨by simpa using hcount, hordered, hdata⟩⟩
  · rintro ⟨lines, h⟩
    rw [← h.map_ofLine] at h
    obtain ⟨hcount, hordered, rfl⟩ := isPageTable_iff.mp h
    exact ⟨_, parse_encode hordered hcount⟩

/-! ## Rows -/

/-- The row lies in the range of the page. -/
def Holds (x : OrdinalIndex) (page ordinal : ℕ) : Prop :=
  ∃ first stop, x.range? page = some (first, stop) ∧ first ≤ ordinal ∧ ordinal < stop

/-- The ranges of the pages begin where the lines say, and divide the rows among them. -/
structure Locates (x : OrdinalIndex) (numRows : ℕ) (lines : List Bytes) : Prop where
  numPages : x.numPages = lines.length
  range_isSome_iff : ∀ page, (x.range? page).isSome ↔ page < x.numPages
  first_eq : ∀ page first stop, x.range? page = some (first, stop) →
    lines[page]?.map lineOrdinal = some first
  nonempty : ∀ page first stop, x.range? page = some (first, stop) → first < stop
  inside : ∀ page first stop, x.range? page = some (first, stop) → stop ≤ numRows
  holds_iff : ∀ ordinal < numRows, ∀ page, x.Holds page ordinal ↔ page = x.findPage ordinal

theorem locates {x : OrdinalIndex} (h : Ordered x.numRows x.entries.toList) :
    x.Locates x.numRows (x.entries.toList.map PageEntry.encode) where
  numPages := by simp [OrdinalIndex.numPages]
  range_isSome_iff page := by
    simp [range?, first?, OrdinalIndex.numPages]
  first_eq page first stop hrange := by
    rw [← (range?_eq_some hrange).1, first?]
    simp [Function.comp_def]
  nonempty page first stop hrange := (range?_bounds h hrange).1
  inside page first stop hrange := (range?_bounds h hrange).2
  holds_iff ordinal hord page := by
    constructor
    · rintro ⟨first, stop, hrange, hfirst, hstop⟩
      exact (findPage_eq h hord hrange hfirst hstop).symm
    · rintro rfl
      exact findPage_spec h hord

end OrdinalIndex

open OrdinalIndex in
/-- Exactly the page tables are accepted as ordinal indexes. What is accepted is stored as the same
bytes, and each row is in the range of one page, which is the one that is found. -/
theorem page_tables_locate_rows (data : Bytes) (numRows : ℕ) :
    ((∃ x, parse data numRows = .ok x) ↔ ∃ lines, IsPageTable numRows data lines) ∧
      ∀ x, parse data numRows = .ok x →
        encode x.entries.toList = data ∧
          ∃ lines, IsPageTable numRows data lines ∧ x.Locates numRows lines := by
  refine ⟨exists_parse_iff, fun x hx => ?_⟩
  obtain ⟨rfl, hcount, hordered, hdata⟩ := parse_eq_ok_iff.mp hx
  exact ⟨hdata.symm, _, isPageTable_iff.mpr ⟨by simpa using hcount, hordered, hdata⟩,
    locates hordered⟩

open OrdinalIndex in
/-- Three pages, and rows at both sides of where one begins. -/
theorem page_tables_locate_rows_three :
    let entries : List PageEntry := [⟨0, ⟨0, 100⟩⟩, ⟨1024, ⟨100, 90⟩⟩, ⟨2048, ⟨190, 40⟩⟩]
    let x : OrdinalIndex := ⟨entries.toArray, 2500⟩
    parse (encode entries) 2500 = .ok x ∧
      (∃ lines, IsPageTable 2500 (encode entries) lines ∧ lines.length = 3) ∧
      x.findPage 1023 = 0 ∧ x.findPage 1024 = 1 ∧ x.findPage 2499 = 2 := by
  intro entries x
  have hparse : parse (encode entries) 2500 = .ok x :=
    parse_encode ⟨by simp [entries], by decide, by decide, by simp [entries]⟩ (by decide)
  obtain ⟨-, hall⟩ := page_tables_locate_rows (encode entries) 2500
  obtain ⟨-, lines, htable, hlocates⟩ := hall x hparse
  have hfind : ∀ {ordinal page : ℕ}, ordinal < 2500 → x.Holds page ordinal →
      x.findPage ordinal = page := fun hord hpage =>
    ((hlocates.holds_iff _ hord _).mp hpage).symm
  exact ⟨hparse, ⟨lines, htable, hlocates.numPages.symm⟩,
    hfind (by decide) ⟨0, 1024, rfl, by decide, by decide⟩,
    hfind (by decide) ⟨1024, 2048, rfl, by decide, by decide⟩,
    hfind (by decide) ⟨2048, 2500, rfl, by decide, by decide⟩⟩

end Columnar
