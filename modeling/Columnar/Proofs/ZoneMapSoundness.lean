import Columnar.Proofs.ColumnReading
import Columnar.Proofs.FooterRoundTrip
import Columnar.Proofs.Lz4Matches

/-! # Zone maps of a written column

The zone maps that a reader finds cover the cells that the writer took: page by page, and for the
column as a whole. -/

namespace Columnar

namespace ColumnPlan

variable {plan : ColumnPlan} {cells : List Cell} {file : Array UInt8} {m : ColumnMeta}

theorem covers_zoneMap (plan : ColumnPlan) (cells : List Cell) :
    (plan.zoneMap cells).Covers cells :=
  ((ZoneMap.describes_ofCells cells).1.truncated _).covers

theorem Written.segmentZoneMap_eq [Lz4.Compressor] (h : plan.Written cells file m) :
    m.segmentZoneMap = if plan.options.needZoneMap then some (plan.zoneMap cells) else none := by
  rcases Option.eq_none_or_eq_some (plan.zoneMaps (plan.runsOf cells).close) with
    hnone | ⟨draft, hdraft⟩
  · rw [if_neg (needZoneMap_of_zoneMaps_eq_none hnone)]
    exact (h.noZoneMaps hnone).2
  · obtain ⟨hneed, hsegment, -⟩ := zoneMaps_eq_some hdraft
    rw [if_pos hneed, ← hsegment]
    exact (h.zoneMaps draft hdraft).1

theorem Heads.field_eq (h : plan.Heads cells m) : m.field = plan.format.field := by
  rw [plan.field_eq, h]
  rfl

theorem Heads.encoding_eq (h : plan.Heads cells m) : m.encoding = plan.format.encoding := by
  rw [h]
  rfl

/-- The footer can say what there is to say about the column. -/
theorem Written.wellFormed [Lz4.Compressor] (h : plan.Written cells file m)
    (haccepts : ∀ c ∈ cells, plan.Accepts c) : m.WellFormed where
  supports := by
    have htype : m.type = plan.format.field.type := congrArg Field.type h.entry.field_eq
    rw [h.entry.encoding_eq, htype]
    exact plan.format.supported
  zoneMap := by
    intro z hz
    rw [h.segmentZoneMap_eq] at hz
    split at hz
    next =>
      obtain rfl := Option.some.inj hz
      rw [h.entry.field_eq]
      exact conforms_zoneMap haccepts
    next => cases hz

end ColumnPlan

/-- A reader of a column that was written with zone maps finds one for each page, which covers the
cells of the page, and in the footer one that covers all cells. The page reads as its cells, if its
body is not too long for the compressed form. -/
theorem zoneMaps_cover [Lz4.Compressor] {id : UInt32} {c : ColumnSchema} {o : ColumnOptions}
    {cells : List Cell} {initial file : Array UInt8} {w₀ w₁ w₂ : ColumnWriter}
    (hneed : o.needZoneMap = true) (hnew : ColumnWriter.new id c o = .ok w₀)
    (hcells : ColumnWriter.appendAll cells w₀ = .ok () w₁)
    (hwrites : ColumnWriter.Writes w₁ initial w₂ file) (hsize : file.size < 2 ^ 64)
    (options : ReadOptions) :
    (∃ col maps, Column.open options w₂.entry cells.length (.memory file) = .ok col ∧
      col.zoneMaps = some maps ∧ maps.length = col.numPages ∧
      ∀ p < col.numPages, ∃ first stop page z, col.index.range? p = some (first, stop) ∧
        page = (cells.drop first).take (stop - first) ∧ maps[p]? = some z ∧ z.Covers page ∧
        ∀ [Lz4.LawfulCompressor], (o.compression = .lz4 → ∀ body,
          Page.body c.field (o.encoding.getD (.default c.type)) page = .ok body →
            body.length < 2 ^ 32) → col.readPage p = .ok page) ∧
    (∃ z, w₂.entry.segmentZoneMap = some z ∧ z.Covers cells) ∧
    (w₂.entry.encode.length < 2 ^ 32 → ∀ rest,
      ColumnMeta.decode (w₂.entry.encode ++ rest) = .ok w₂.entry rest) := by
  obtain ⟨plan, -, rfl, rfl, hencoding, hcompression, hholds, hopen⟩ := ColumnPlan.new_eq_ok hnew
  have hstart : plan.Holds (plan.runsOf []) w₀ := hholds
  obtain ⟨haccepts, hholds, -⟩ := hstart.appendAll hopen hcells
  rw [List.nil_append] at hholds
  have hwritten := hholds.writes hwrites hsize
  refine ⟨?_, ⟨plan.zoneMap cells, ?_, plan.covers_zoneMap cells⟩, fun hlen => ?_⟩
  · obtain ⟨col, hcol, hopened⟩ := hwritten.open haccepts options
    have hpages := hopened.index.length_eq
    rw [Page.length_numbered, Array.length_toList] at hpages
    refine ⟨col, (plan.runs cells).map plan.zoneMap, hcol, ?_, ?_, fun p hp => ?_⟩
    · rw [hopened.zoneMaps, ColumnPlan.pageMaps, if_pos hneed]
    · rw [List.length_map, ← hpages]
      rfl
    · have hrun := List.getElem?_eq_getElem (hpages ▸ hp : p < (plan.runs cells).length)
      have hslice := Page.slice_flatten hrun
      rw [ColumnPlan.flatten_runs] at hslice
      refine ⟨_, _, (plan.runs cells)[p], plan.zoneMap _, by rw [hopened.range?_eq, hrun]; rfl, ?_,
        by rw [List.getElem?_map, hrun]; rfl, plan.covers_zoneMap _, fun hfit => ?_⟩
      · rw [Nat.add_sub_cancel_left, hslice]
      · refine hopened.readPage_eq_ok haccepts hrun fun hc => ?_
        rw [plan.field_eq, hencoding]
        exact hfit (hcompression ▸ hc)
  · rw [hwritten.segmentZoneMap_eq, if_pos hneed]
  · exact ColumnMeta.reads_encode (hwritten.wellFormed haccepts) (by omega)

attribute [local instance] Lz4.matcher

/-- Strings of all ones, a null and a longer string, two to a page and with bounds of one byte. -/
theorem zoneMaps_cover_strings :
    let c : ColumnSchema := { uniqueId := 1, name := "tag", type := .varchar }
    let o : ColumnOptions :=
      { encoding := some .plain, compression := .none, needZoneMap := true, maxRowsPerPage := 2
        zoneMapMaxStringLength := 1 }
    let cells : List Cell := [some (.bytes [255, 255]), none, some (.bytes [97, 98, 99])]
    ∃ w₀ w₁ w₂ file, ColumnWriter.new 0 c o = .ok w₀ ∧
      ColumnWriter.appendAll cells w₀ = .ok () w₁ ∧ ColumnWriter.Writes w₁ #[] w₂ file ∧
      file.size < 2 ^ 64 ∧
      ∃ col maps, Column.open {} w₂.entry cells.length (.memory file) = .ok col ∧
        col.zoneMaps = some maps ∧ maps.length = col.numPages ∧
        ∀ p < col.numPages, ∃ first stop page z, col.index.range? p = some (first, stop) ∧
          page = (cells.drop first).take (stop - first) ∧ maps[p]? = some z ∧ z.Covers page ∧
          col.readPage p = .ok page := by
  intro c o cells
  have hrun : (ColumnWriter.written? 0 c o #[] cells).any (·.2.2.2.size < 2 ^ 64) = true := by
    decide +kernel
  obtain ⟨w₀, w₁, w₂, file, hnew, hcells, hwrites, hsize⟩ := ColumnWriter.exists_writes hrun
  obtain ⟨col, maps, hcol, hmaps, hcount, hpages⟩ :=
    (zoneMaps_cover rfl hnew hcells hwrites hsize {}).1
  refine ⟨w₀, w₁, w₂, file, hnew, hcells, hwrites, hsize, col, maps, hcol, hmaps, hcount,
    fun p hp => ?_⟩
  obtain ⟨first, stop, page, z, hrange, hpage, hz, hcovers, hreads⟩ := hpages p hp
  exact ⟨first, stop, page, z, hrange, hpage, hz, hcovers, hreads nofun⟩

end Columnar
