import Columnar.Proofs.ZoneMapBounds
import Columnar.Segment.Footer

/-! # Footers come back

What a footer says about its columns comes back from its stored form, if it is something that can be
said of a column. -/

namespace Columnar

open Decoder (Reads)

namespace ColumnMeta

/-- The encoding supports the type, and the zone map is one of the column. -/
structure WellFormed (m : ColumnMeta) : Prop where
  supports : m.encoding.supports m.type = true
  zoneMap : ∀ z, m.segmentZoneMap = some z → z.Conforms m.field

theorem reads_encode {m : ColumnMeta} (h : m.WellFormed) (hlen : m.encode.length < 2 ^ 64) :
    Reads decode m.encode m := by
  have hpages : 2 * m.pages.toList.length ≤ (m.pages.toList.flatMap Pointer.encode).length :=
    Bytes.mul_length_le_flatMap fun p _ => p.two_le_length_encode
  have hflag := Decoder.reads_flag m.isNullable "is_nullable"
  have hpointers : Reads (Decoder.times m.pages.size Pointer.decode)
      (m.pages.toList.flatMap Pointer.encode) m.pages.toList := by
    rw [← Array.length_toList]
    exact Decoder.reads_times fun p _ => p.reads_encode
  rw [Array.length_toList] at hpages
  simp only [encode, List.append_assoc, List.cons_append] at hlen ⊢
  simp only [List.length_append, List.length_cons] at hlen
  refine (Varint.reads_encode32 m.id).bind ((Varint.reads_encode32 m.uniqueId).bind ?_)
  refine (Decoder.reads_named (FieldType.ofId?_id m.type)).bind_cons ?_
  refine (Varint.reads_encode32 m.length).bind (hflag.bind_cons ?_)
  refine (Decoder.reads_named (Encoding.ofId?_id m.encoding)).bind_cons ?_
  refine (Decoder.reads_named (Compression.ofId?_id m.compression)).bind_cons ?_
  rw [if_pos h.supports]
  apply (Varint.reads_encode64 m.numRows).bind
  apply (Varint.reads_encode (n := m.pages.size) (by omega)).bind
  refine Reads.remaining fun left hleft => ?_
  have hroom : ¬ left / 2 < m.pages.size := by
    simp only [List.length_append] at hleft
    omega
  rw [if_neg hroom]
  refine hpointers.bind ((Pointer.reads_encodeOptional _ m.ordinalIndex).bind ?_)
  apply (Pointer.reads_encodeOptional _ m.zoneMaps).bind
  cases hz : m.segmentZoneMap with
  | none =>
      apply (Decoder.reads_flag false _).bind_pure
      simp [← hz]
  | some z =>
      have hrecord : z.encode.length < 2 ^ 64 := by
        simp only [hz, encodeZoneMap, ZoneMap.encodeRecord, List.length_cons,
          List.length_append] at hlen
        omega
      apply (Decoder.reads_flag true _).bind_cons
      have hstorable := (h.zoneMap z hz).storable hrecord
      apply ((ZoneMap.reads_encodeRecord hstorable hrecord).map some).bind_pure
      simp [← hz]

theorem eight_le_length_encode (m : ColumnMeta) : 8 ≤ m.encode.length := by
  have hid := Varint.length_encode_pos m.id.toNat
  have hunique := Varint.length_encode_pos m.uniqueId.toNat
  have hlength := Varint.length_encode_pos m.length.toNat
  have hrows := Varint.length_encode_pos m.numRows.toNat
  simp only [encode, List.length_append, List.length_cons]
  omega

end ColumnMeta

namespace Footer

/-- Columns that are numbered from `position` on. -/
theorem reads_decodeColumns {columns : List ColumnMeta} (h : ∀ m ∈ columns, m.WellFormed)
    (hlen : (columns.flatMap ColumnMeta.encode).length < 2 ^ 64) {position : ℕ}
    (hids : ∀ (k : ℕ) (m : ColumnMeta), columns[k]? = some m → m.id.toNat = position + k) :
    Reads (decodeColumns columns.length position) (columns.flatMap ColumnMeta.encode) columns := by
  induction columns generalizing position with
  | nil => exact Reads.pure []
  | cons m ms ih =>
      simp only [List.flatMap_cons, List.length_append] at hlen ⊢
      have hm := ColumnMeta.reads_encode (h m (by simp)) (by omega)
      have hid : m.id.toNat = position := hids 0 m rfl
      have hids' : ∀ (k : ℕ) (n : ColumnMeta), ms[k]? = some n → n.id.toNat = position + 1 + k :=
        fun k n hn => (hids (k + 1) n hn).trans (by omega)
      have hms := ih (fun n hn => h n (by simp [hn])) (by omega) hids'
      apply hm.bind
      rw [if_neg (not_not.mpr hid)]
      exact hms.bind_pure rfl

/-- A footer comes back from its stored form. -/
theorem parse_encode {f : Footer} (hversion : f.version = supportedVersion)
    (h : ∀ m ∈ f.columns, m.WellFormed)
    (hids : ∀ (k : ℕ) (m : ColumnMeta), f.columns[k]? = some m → m.id.toNat = k)
    (hlen : f.encode.length < 2 ^ 64) : parse f.encode = .ok f := by
  have hcount : 8 * f.columns.length ≤ (f.columns.flatMap ColumnMeta.encode).length :=
    Bytes.mul_length_le_flatMap fun m _ => m.eight_le_length_encode
  simp only [encode, List.cons_append, List.append_assoc] at hlen ⊢
  simp only [List.length_cons, List.length_append] at hlen
  have hcolumns : Reads (decodeColumns f.columns.length 0) _ f.columns :=
    reads_decodeColumns h (by omega) (by simpa using hids)
  have hroom : ¬ (f.columns.flatMap ColumnMeta.encode ++
      Pointer.encodeOptional f.shortKeys).length / 8 < f.columns.length := by
    rw [List.length_append]
    omega
  have hread : decode (f.version :: (Varint.encode f.numRows.toNat ++
      (Varint.encode f.columns.length ++ (f.columns.flatMap ColumnMeta.encode ++
        Pointer.encodeOptional f.shortKeys)))) = .ok f [] := by
    apply ((Decoder.reads_byte f.version _).bind_append _).trans
    rw [if_neg (not_not.mpr hversion)]
    apply ((Varint.reads_encode64 f.numRows).bind_append _).trans
    apply ((Varint.reads_encode (n := f.columns.length) (by omega)).bind_append _).trans
    change (if (f.columns.flatMap ColumnMeta.encode ++
      Pointer.encodeOptional f.shortKeys).length / 8 < f.columns.length then _ else _ :
        Decoder Footer) _ = _
    rw [if_neg hroom]
    apply (hcolumns.bind_append _).trans
    apply ((Pointer.reads_encodeOptional _ f.shortKeys).bind_eq).trans
    rw [UInt64.ofNat_toNat]
    rfl
  rw [parse, hread]

end Footer

end Columnar
