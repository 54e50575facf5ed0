import Columnar.Proofs.CellConformance
import Columnar.Proofs.PageBuilding

/-! # Pages that nobody wrote

The decoder takes more than the encoder writes: numbers with leading zeros, strings that a
dictionary lists twice or that no code leads to, widths beyond that of the greatest distance,
distances that wrap around, a bitmap in which no bit is set. None of this is in the cells. Whatever
bytes they were read from, they can be written again, and come back. -/

namespace Columnar

/-- The length that a block expands to stands before it in four bytes. -/
theorem Compression.length_decompress_lt {data bytes : Bytes}
    (h : lz4.decompress data = .ok bytes) : bytes.length < 2 ^ 32 := by
  simp only [decompress] at h
  cases hword : Decoder.word 4 "lz4 size prefix" data with
  | error e rest =>
      rw [hword] at h
      cases e <;> cases h
  | ok claimed block =>
      obtain ⟨-, hclaimed⟩ := Decoder.spells_word hword
      rw [hword] at h
      dsimp only at h
      split at h
      next => cases h
      next =>
        cases hexpand : Lz4.expand claimed block with
        | error e =>
            rw [hexpand] at h
            cases h
        | ok data =>
            rw [hexpand] at h
            cases h
            obtain ⟨-, hle⟩ := Lz4.length_expand_le hexpand
            omega

namespace Page

/-! ## How long a body is when it is written again -/

section

variable {f : Field} {e : Encoding} {cells : List Cell} {body : Bytes} {flag : UInt8}
  {bitmap values : Bytes}

/-- Only a flag that is set has a bitmap behind it, and only a bitmap marks nulls. -/
theorem Layout.length_nullMap_le (h : Layout f e body flag bitmap values cells) :
    (nullMap cells).length ≤ 1 + bitmap.length := by
  rw [nullMap]
  split
  next hany =>
    obtain ⟨c, hc, hnull⟩ := List.any_eq_true.mp hany
    obtain ⟨row, hrow, rfl⟩ := List.mem_iff_getElem.mp hc
    have hmarked : marks bitmap row = true := by
      rw [← h.nulls row hrow, List.getElem?_eq_getElem hrow, Option.isNone_iff_eq_none.mp hnull]
    have hset : bitmap.length = bytesFor cells.length := by
      rcases h.flagged with ⟨-, rfl⟩ | ⟨-, hlen⟩
      · simp [marks] at hmarked
      · exact hlen
    rw [List.length_cons, length_pack, nullBits, List.length_map, Nat.mul_one, hset, Nat.add_comm]
  next => simp

/-- Written again a body is no longer than it was, or short. -/
theorem Layout.length_body_le (he : e.supports f.type = true)
    (h : Layout f e body flag bitmap values cells) {bytes : Bytes}
    (hbytes : Page.body f e cells = .ok bytes) :
    bytes.length ≤ max body.length (20 + 9 * cells.length) := by
  obtain ⟨again, hagain, hbytes⟩ := of_bind_eq_ok hbytes
  cases hbytes
  obtain ⟨n, hn, hread⟩ := consumes_decodeValues he _ _ _ _ h.values
  obtain ⟨k, hk, hcount⟩ := Varint.consumes_decode _ _ _ h.count
  have hvalues := hread.length_le again hagain
  have hnulls := h.length_nullMap_le
  have hcount := hcount cells.length le_rfl
  have hword : (Varint.encode cells.length).length ≤ 10 := by
    have hlt := Varint.yields_decode _ _ _ h.count
    exact Varint.length_encode_le (by norm_num; omega) (by norm_num)
  have hplaces : (cells.filterMap id).length ≤ cells.length := List.length_filterMap_le _ _
  have hbitmap : bitmap.length ≤ bytesFor cells.length := by
    rcases h.flagged with ⟨-, rfl⟩ | ⟨-, hlen⟩
    · exact Nat.zero_le _
    · exact hlen.le
  rw [bytesFor] at hbitmap
  simp only [List.length_append, List.length_cons, List.length_nil] at hk hn ⊢
  omega

end

/-! ## Pages -/

/-- What is known of the cells that a page was decoded to. -/
structure Decoded [Lz4.Compressor] (f : PageFormat) (raw : Bytes) (rows : ℕ)
    (cells : List Cell) : Prop where
  length_eq : cells.length = rows
  rows_le : rows ≤ maxRows
  /-- Nulls are where the bitmap of the page has them, and there is a value for each other cell. -/
  layout : ∃ body flag bitmap values,
    f.compression.decompress (raw.take (raw.length - 4)) = .ok body ∧
      Layout f.field f.encoding body flag bitmap values cells
  /-- In a page of the same format the cells come back. -/
  stable : ∃ page, (cells.foldl Draft.add { format := f }).finish = .ok (page, { format := f }) ∧
    ∀ verify, decode f page rows verify = .ok cells

/-- Whatever bytes decode as a page, the cells are all there, nulls only where they are marked, and
they come back from the page that is made of them. -/
theorem decoded_cells_stable [Lz4.Compressor] [Lz4.LawfulCompressor] {f : PageFormat} {raw : Bytes}
    {rows : ℕ} {verify : Bool} {cells : List Cell} (h : decode f raw rows verify = .ok cells) :
    Decoded f raw rows cells := by
  obtain ⟨hrows, body, rest, hexpand, hbody⟩ := of_decode_eq_ok h
  obtain rfl := length_of_decodeBody hbody
  obtain ⟨flag, bitmap, values, hlayout⟩ := layout_of_decodeBody f.supported hbody
  obtain ⟨n, -, hread⟩ := consumes_decodeValues f.supported _ _ _ _ hlayout.values
  have htakes : Takes f.field f.encoding cells := fun v hv => holds_of_decode h hv
  have hshort : Short cells := fun bs hbs =>
    hread.storable.short bs (List.mem_filterMap.mpr ⟨_, hbs, rfl⟩)
  obtain ⟨bytes, hbytes⟩ := body_eq_ok f.supported htakes.kinds
  obtain ⟨page, hpage⟩ := encode_eq_ok htakes.kinds
  have hfit : f.compression = .lz4 → bytes.length < 2 ^ 32 := by
    intro hc
    have hlt := Compression.length_decompress_lt (hc ▸ hexpand)
    have hle := hlayout.length_body_le f.supported hbytes
    have hrows : cells.length ≤ 2 ^ 20 := hrows
    omega
  refine ⟨rfl, hrows, ⟨body, flag, bitmap, values, hexpand, hlayout⟩, page, ?_, fun verify' => ?_⟩
  · change (Draft.of f cells).finish = _
    rw [Draft.finish_of, hpage]
    rfl
  · exact decode_encode htakes hrows hshort hbytes hfit hpage verify'

attribute [local instance] Lz4.matcher

/-- A count with a leading zero, an entry that is listed twice, and codes of a whole byte; and
distances from the greatest number, of which one wraps around. -/
theorem decoded_cells_stable_redundant :
    let strings : PageFormat := ⟨⟨.varchar, 0⟩, .dictionary, .none, rfl⟩
    let listed : Bytes := [0x83, 0, 1, 2, 3, 1, 97, 1, 97, 1, 98, 8, 2, 0, 0, 0, 0, 0]
    let cells : List Cell := [some (.bytes [98]), none, some (.bytes [97])]
    let numbers : PageFormat := ⟨⟨.bigint, 0⟩, .bitPacked, .none, rfl⟩
    let wrapped : Bytes := [2, 0, 255, 255, 255, 255, 255, 255, 255, 127, 1, 2, 0, 0, 0, 0]
    let ends : List Cell := [some (.int64 (BitVec.intMax 64)), some (.int64 (BitVec.intMin 64))]
    (decode strings listed 3 false = .ok cells ∧ Decoded strings listed 3 cells) ∧
      decode numbers wrapped 2 false = .ok ends ∧ Decoded numbers wrapped 2 ends := by
  intro strings listed cells numbers wrapped ends
  have hlisted : decode strings listed 3 false = .ok cells := rfl
  have hwrapped : decode numbers wrapped 2 false = .ok ends := rfl
  exact ⟨⟨hlisted, decoded_cells_stable hlisted⟩, hwrapped, decoded_cells_stable hwrapped⟩

end Page

end Columnar
