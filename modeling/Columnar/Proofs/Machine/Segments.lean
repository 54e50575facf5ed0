import Columnar.Proofs.Machine.Columns
import Columnar.Segment.RowScan

/-! # Segments as a machine opens them

The trailer is found from the end of the file and the footer from the trailer, if both fit. The keys
of a short-key index are cut out between offsets that do not fall and stay inside the keys. -/

namespace Columnar.Machine

/-! ## Footers -/

def columnMeta : Run Bytes ColumnMeta := do
  let id ← varint32
  let uniqueId ← varint32
  let type ← named "field type" FieldType.ofId? .fieldTypeId
  let length ← varint32
  let isNullable ← flag "is_nullable"
  let encoding ← named "encoding" Encoding.ofId? .encodingId
  let compression ← named "compression" Compression.ofId? .compressionId
  unless encoding.supports type do
    throw (.corruption (.columnEncoding id.toNat type encoding))
  let numRows ← varint
  let numPages ← varint
  let left ← remaining
  if left / 2 < numPages then throw (.corruption (.columnPages id.toNat numPages left))
  let pages ← times numPages pointer
  let ordinalIndex ← pointer? "ordinal index pointer"
  let zoneMaps ← pointer? "zone map pointer"
  let segmentZoneMap ←
    if ← flag "segment zone map" then some <$> zoneMapRecord ⟨type, length⟩
    else pure none
  return {
    id, uniqueId, type, length, isNullable, encoding, compression
    numRows := UInt64.ofNat numRows
    pages := pages.toArray
    ordinalIndex, zoneMaps, segmentZoneMap }

theorem columnMeta_eq : columnMeta = whole ColumnMeta.decode := by
  rw [columnMeta, ColumnMeta.decode]
  simp only [whole_bind, whole_ite, whole_map, varint_eq, varint32_eq, named_eq, flag_eq,
    remaining_eq, pointer_eq, pointer?_eq, times_eq, zoneMapRecord_eq]
  rfl

def footerColumns : (count position : ℕ) → Run Bytes (List ColumnMeta)
  | 0, _ => return []
  | count + 1, position => do
    let c ← columnMeta
    if c.id.toNat ≠ position then throw (.corruption (.footerOrder position c.id.toNat))
    let cs ← footerColumns count (position + 1)
    return c :: cs

theorem footerColumns_eq (count position : ℕ) :
    footerColumns count position = whole (Footer.decodeColumns count position) := by
  induction count generalizing position with
  | zero => rfl
  | succ count ih =>
      rw [footerColumns, Footer.decodeColumns]
      simp only [whole_bind, whole_ite, columnMeta_eq, ih]
      rfl

def footer : Run Bytes Footer := do
  let version ← byte "footer version"
  if version ≠ Footer.supportedVersion then
    throw (.unsupported (.footerVersion version Footer.supportedVersion))
  let numRows ← varint
  let numColumns ← varint
  let left ← remaining
  if left / 8 < numColumns then throw (.corruption (.footerColumns numColumns left))
  let columns ← footerColumns numColumns 0
  let shortKeys ← pointer? "short key pointer"
  let left ← remaining
  if left ≠ 0 then throw (.corruption (.footerTail left))
  return { version, numRows := UInt64.ofNat numRows, columns, shortKeys }

theorem footer_eq : footer = whole Footer.decode := by
  rw [footer, Footer.decode]
  simp only [whole_bind, whole_ite, byte_eq, varint_eq, remaining_eq, footerColumns_eq, pointer?_eq]
  rfl

theorem gives_footer (data : Bytes) : Gives (answer footer data) (Footer.parse data) := by
  rw [footer_eq, Gives, answer, whole, Footer.parse]
  cases Footer.decode data <;> rfl

/-! ## The end of a file -/

def trailer : Run Bytes (ℕ × UInt32) := do
  let size ← word 4 "footer size"
  let stored ← word32 "footer checksum"
  let rest ← get
  if rest ≠ Footer.magic then throw .badMagic
  return (size, stored)

def readTrailer (bytes : Array UInt8) : Outcome (ℕ × UInt32) := do
  if bytes.size < Footer.trailerSize then throw (.corruption (.fileTooSmall bytes.size))
  let room ← sub bytes.size Footer.trailerSize
  let found ← readAt bytes room Footer.trailerSize
  answer trailer found

def openSegment (bytes : Array UInt8) : Outcome Segment := do
  let (size, stored) ← readTrailer bytes
  let room ← sub bytes.size Footer.trailerSize
  if room < size then throw (.corruption (.footerTooLarge size bytes.size))
  let start ← sub room size
  let found ← readAt bytes start size
  let computed := crc32c found
  if stored ≠ computed then throw (.checksum stored computed)
  let footer ← answer footer found
  if let some p := footer.shortKeys then
    if ¬ endsInside p.offset.toNat p.size.toNat start then
      throw (.corruption (.shortKeyOverlap p.offset.toNat p.clampedStop start))
  return { file := .memory bytes, footer }

theorem gives_trailer {found : Bytes} (h : found.length = Footer.trailerSize) :
    Gives (answer trailer found) (do
      if found.drop 8 ≠ Footer.magic then throw .badMagic
      return (Bytes.toNat (found.take 4), UInt32.ofNat (Bytes.toNat ((found.drop 4).take 4)))) := by
  have hsize : 4 ≤ found.length := by simp [h, Footer.trailerSize]
  have hstored : 4 ≤ (found.drop 4).length := by simp [h, Footer.trailerSize]
  rw [Gives, answer, trailer, bind_of_ok (word_of_le hsize), bind_of_ok (word32_of_le hstored),
    get_bind, List.drop_drop]
  by_cases hmagic : found.drop 8 = Footer.magic
  · simp only [hmagic, ne_eq, not_true_eq_false, if_false]
    rfl
  · simp only [hmagic, ne_eq, not_false_eq_true, if_true]
    rfl

section

variable {bytes : Array UInt8} (hsize : bytes.size < 2 ^ 64)
include hsize

theorem gives_readTrailer : Gives (readTrailer bytes) (Segment.readTrailer (.memory bytes)) := by
  refine .check fun hlong => .lift (sub_eq (Nat.le_of_not_lt hlong)) ?_
  refine (gives_readAt hsize _ _).bind fun found hfound => ?_
  exact gives_trailer ((File.honest_readAt bytes _ _).holds hfound)

theorem gives_openSegment : Gives (openSegment bytes) (Segment.open (.memory bytes)) := by
  refine (gives_readTrailer hsize).bind fun (size, stored) htrailer => ?_
  have hlong : Footer.trailerSize ≤ bytes.size := by
    by_contra hlt
    have hshort : (File.memory bytes).size < Footer.trailerSize := Nat.lt_of_not_le hlt
    rw [Segment.readTrailer, if_pos hshort] at htrailer
    cases htrailer
  refine .lift (sub_eq hlong) (.check fun hroom => ?_)
  refine .lift (sub_eq (Nat.le_of_not_lt hroom)) ((gives_readAt hsize _ _).bind fun found _ => ?_)
  refine .check fun _ => (gives_footer found).bind fun footer _ => ?_
  cases footer.shortKeys with
  | none => exact .pure _
  | some p =>
      simp only [endsInside_pointer (show bytes.size - Footer.trailerSize - size < 2 ^ 64 by omega)]
      exact .check fun _ => .pure _

end

/-! ## Short keys -/

/-- A key ends where the next one begins, the last one at the end of the keys. -/
def key (keys : Bytes) (offsets : List ℕ) (i : ℕ) : Option Bytes := do
  let start ← index offsets i
  let after ← add 64 i 1
  let stop := offsets[after]?.getD keys.length
  slice keys start stop

def cutKeys (keys : Bytes) (offsets : List ℕ) : Option (List Bytes) :=
  (List.range offsets.length).mapM (key keys offsets)

/-- The header is read off the data; the keys are a slice of the data and the offsets one of what
is left behind the header. -/
def shortKeyIndex (data : Bytes) : Run Bytes ShortKeyIndex := do
  let segmentId ← word32 "short key segment id"
  let numRowsPerBlock ← word32 "short key rows per block"
  let numItems ← word 4 "short key item count"
  let numRows ← word32 "short key row count"
  let keySize ← word 4 "short key bytes length"
  let offsetSize ← word 4 "short key offsets length"
  let stored ← word32 "short key checksum"
  let cursor ← get
  let bodySize ← add 64 keySize offsetSize
  if cursor.length ≠ bodySize then throw (.corruption (.shortKeySize cursor.length bodySize))
  let keysEnd ← add 64 ShortKeyDraft.headerSize keySize
  let keys ← slice data ShortKeyDraft.headerSize keysEnd
  let offsetBytes ← slice cursor keySize cursor.length
  let computed := crc32c (keys ++ offsetBytes)
  if stored ≠ computed then throw (.checksum stored computed)
  if offsetSize ≠ numItems * 4 then throw (.corruption (.shortKeyOffsets numItems offsetSize))
  let rows := numRows.toNat
  let perBlock := numRowsPerBlock.toNat
  if perBlock = 0 ∨ numItems ≠ ShortKeyIndex.blocksFor rows perBlock then
    throw (.corruption (.shortKeyItems numItems rows perBlock))
  set offsetBytes
  let offsets ← times numItems (word 4 "short key offset")
  if let some (item, offset) := ShortKeyIndex.misplaced? keySize 0 0 offsets then
    throw (.corruption (.shortKeyOrder offset item))
  let cut ← cutKeys keys offsets
  return { segmentId, numRowsPerBlock, numRows, keys := cut.toArray }

theorem of_misplaced?_cons {size position next o : ℕ} {offsets : List ℕ}
    (h : ShortKeyIndex.misplaced? size position next (o :: offsets) = none) :
    (if position = 0 then o = 0 else next ≤ o) ∧ o ≤ size ∧
      ShortKeyIndex.misplaced? size (position + 1) o offsets = none := by
  rw [ShortKeyIndex.misplaced?] at h
  by_cases hin : (if position = 0 then o = 0 else next ≤ o) ∧ o ≤ size
  · rw [if_pos hin] at h
    exact ⟨hin.1, hin.2, h⟩
  · rw [if_neg hin] at h
    cases h

theorem key_last {keys : Bytes} {start : ℕ} (h : start ≤ keys.length) :
    key keys [start] 0 = some (keys.drop start) := by
  simp only [key, index, List.getElem?_cons_zero, add_eq (show 0 + 1 < 2 ^ 64 by norm_num),
    Option.bind_eq_bind, Option.bind_some]
  exact slice_drop h

theorem key_zero {keys : Bytes} {start stop : ℕ} {offsets : List ℕ} (hle : start ≤ stop)
    (h : stop ≤ keys.length) :
    key keys (start :: stop :: offsets) 0 = some ((keys.drop start).take (stop - start)) := by
  simp only [key, index, List.getElem?_cons_zero, add_eq (show 0 + 1 < 2 ^ 64 by norm_num),
    Option.bind_eq_bind, Option.bind_some]
  exact (slice_eq hle h).trans (by rw [List.extract_eq_take_drop])

theorem key_succ {keys : Bytes} {start i : ℕ} {offsets : List ℕ} (hi : i + 2 < 2 ^ 64) :
    key keys (start :: offsets) (i + 1) = key keys offsets i := by
  simp only [key, add_eq (show i + 1 + 1 < 2 ^ 64 by omega), add_eq (show i + 1 < 2 ^ 64 by omega),
    index, List.getElem?_cons_succ, Option.bind_eq_bind, Option.bind_some]

/-- Behind the offset of a key, what is cut are the keys from that one on. -/
theorem splitOnto_eq (keys : Bytes) (offsets : List ℕ) :
    ∀ start position done, start ≤ keys.length → offsets.length + 1 < 2 ^ 32 →
      ShortKeyIndex.misplaced? keys.length (position + 1) start offsets = none →
      ∃ cut, ShortKeyIndex.splitOnto (keys.drop start) start offsets done = done.reverse ++ cut ∧
        cut.length = offsets.length + 1 ∧
        ∀ i found, cut[i]? = some found → key keys (start :: offsets) i = some found := by
  induction offsets with
  | nil =>
      intro start position done hstart _ _
      refine ⟨[keys.drop start], by simp [ShortKeyIndex.splitOnto], rfl, fun i found hi => ?_⟩
      cases i with
      | zero =>
          cases hi
          exact key_last hstart
      | succ i => cases hi
  | cons o offsets ih =>
      intro start position done hstart hcount hplaced
      rw [List.length_cons] at hcount
      obtain ⟨hle, hin, hrest⟩ := of_misplaced?_cons hplaced
      rw [if_neg (Nat.succ_ne_zero position)] at hle
      obtain ⟨cut, hcut, hlen, hkeys⟩ := ih o (position + 1)
        ((keys.drop start).take (o - start) :: done) hin (by omega) hrest
      refine ⟨(keys.drop start).take (o - start) :: cut, ?_, by simp [hlen], fun i found hi => ?_⟩
      · rw [ShortKeyIndex.splitOnto, List.drop_drop, Nat.add_sub_of_le hle, hcut]
        simp
      · cases i with
        | zero =>
            cases hi
            exact key_zero hle hin
        | succ i =>
            rw [List.getElem?_cons_succ] at hi
            obtain ⟨hlt, -⟩ := List.getElem?_eq_some_iff.mp hi
            rw [key_succ (by omega)]
            exact hkeys i found hi

/-- The keys that are cut one after the other are those found from their offsets. -/
theorem key_split {keys : Bytes} {offsets : List ℕ} (hcount : offsets.length < 2 ^ 32)
    (h : ShortKeyIndex.misplaced? keys.length 0 0 offsets = none) :
    (ShortKeyIndex.split keys offsets).length = offsets.length ∧
      ∀ i found, (ShortKeyIndex.split keys offsets)[i]? = some found →
        key keys offsets i = some found := by
  cases offsets with
  | nil => exact ⟨rfl, fun _ _ hi => by cases hi⟩
  | cons o offsets =>
      obtain ⟨-, hin, hrest⟩ := of_misplaced?_cons h
      obtain ⟨cut, hcut, hlen, hkeys⟩ := splitOnto_eq keys offsets o 0 [] hin hcount hrest
      rw [ShortKeyIndex.split, hcut]
      exact ⟨hlen, hkeys⟩

theorem cutKeys_eq {keys : Bytes} {offsets : List ℕ} (hcount : offsets.length < 2 ^ 32)
    (h : ShortKeyIndex.misplaced? keys.length 0 0 offsets = none) :
    cutKeys keys offsets = some (ShortKeyIndex.split keys offsets) := by
  obtain ⟨hlen, hkeys⟩ := key_split hcount h
  rw [cutKeys, ← hlen]
  exact mapM_range_eq_some hkeys

/-- Behind the header is as much as the header says, so that both slices are there. -/
theorem shortKeyIndex_eq (data : Bytes) :
    shortKeyIndex data data = whole ShortKeyIndex.decode data := by
  rw [shortKeyIndex, ShortKeyIndex.decode]
  simp only [word32_eq, word_eq]
  refine bind_whole fun segmentId rest₁ h₁ => bind_whole fun perBlock rest₂ h₂ => ?_
  refine bind_whole fun numItems rest₃ h₃ => bind_whole fun numRows rest₄ h₄ => ?_
  refine bind_whole fun keySize rest₅ h₅ => bind_whole fun offsetSize rest₆ h₆ => ?_
  refine bind_whole fun stored rest h₇ => ?_
  obtain ⟨h₃, hitems⟩ := Decoder.spells_word h₃
  obtain ⟨h₅, hkeySize⟩ := Decoder.spells_word h₅
  obtain ⟨h₆, hoffsetSize⟩ := Decoder.spells_word h₆
  obtain ⟨header, hdata, hheader⟩ : ∃ header, data = header ++ rest ∧
      header.length = ShortKeyDraft.headerSize := by
    refine ⟨Bytes.little 4 segmentId.toNat ++ Bytes.little 4 perBlock.toNat ++
      Bytes.little 4 numItems ++ Bytes.little 4 numRows.toNat ++ Bytes.little 4 keySize ++
      Bytes.little 4 offsetSize ++ Bytes.little 4 stored.toNat, ?_,
      by simp [ShortKeyDraft.headerSize]⟩
    rw [Decoder.spells_word32 _ _ _ _ h₁, Decoder.spells_word32 _ _ _ _ h₂, h₃,
      Decoder.spells_word32 _ _ _ _ h₄, h₅, h₆, Decoder.spells_word32 _ _ _ _ h₇]
    simp only [List.append_assoc]
  have hend : ShortKeyDraft.headerSize + keySize < 2 ^ 64 := by
    rw [ShortKeyDraft.headerSize]
    omega
  rw [get_bind, lift_bind (add_eq (show keySize + offsetSize < 2 ^ 64 by omega))]
  refine check_whole fun hlen => ?_
  have hlen : rest.length = keySize + offsetSize := not_not.mp hlen
  have hkeys : slice data ShortKeyDraft.headerSize (ShortKeyDraft.headerSize + keySize) =
      some (rest.take keySize) := by
    rw [slice_eq (Nat.le_add_right _ _) (by rw [hdata, List.length_append, hheader]; omega),
      List.extract_eq_take_drop, hdata, List.drop_left' hheader, Nat.add_sub_cancel_left]
  rw [lift_bind (add_eq hend), lift_bind hkeys, lift_bind (slice_drop (by omega)),
    List.take_append_drop]
  refine check_whole fun _ => check_whole fun _ => check_whole fun _ => ?_
  have htake : whole (Decoder.take keySize "short key bytes") rest =
      some (.ok (rest.take keySize), rest.drop keySize) := by
    rw [whole, Decoder.take_eq_ok (by omega)]
    rfl
  rw [set_bind, whole_bind, bind_of_ok htake, times_eq]
  refine bind_whole fun offsets left hoffsets => ?_
  have hspells : Decoder.Spells (Decoder.word 4 "short key offset") (Bytes.little 4) :=
    fun _ _ _ h => (Decoder.spells_word h).1
  have hcount := (Decoder.spells_times hspells hoffsets).1
  have hsize : (rest.take keySize).length = keySize := List.length_take_of_le (by omega)
  cases hplaced : ShortKeyIndex.misplaced? keySize 0 0 offsets with
  | some placed => rfl
  | none =>
      rw [← hsize] at hplaced
      exact congrFun (lift_bind (cutKeys_eq (by omega) hplaced) _) left

/-! ## Segments -/

def openColumnOf (s : Segment) (id : ℕ) (options : ReadOptions) : Outcome Column :=
  match s.footer.columns[id]? with
  | some entry => openColumn options entry s.numRows s.file.bytes
  | none => throw (.argument (.column id s.numColumns))

def shortKeys (s : Segment) : Outcome (Option ShortKeyIndex) :=
  match s.footer.shortKeys with
  | none => return none
  | some p => do
    let data ← readAt s.file.bytes p.offset.toNat p.size.toNat
    let index ← answer (shortKeyIndex data) data
    if index.numRows.toNat ≠ s.numRows then
      throw (.corruption (.shortKeyRows index.numRows.toNat s.numRows))
    return some index

def rows (s : Segment) (options : ReadOptions) : Outcome RowScan := do
  let columns ← (List.range s.numColumns).mapM fun id => openColumnOf s id options
  return { columns := columns.map Column.scan, numRows := s.numRows }

section

variable {bytes : Array UInt8} {s : Segment} (hsize : bytes.size < 2 ^ 64)
  (hfile : s.file = .memory bytes)
include hsize hfile

theorem gives_openColumnOf (id : ℕ) (options : ReadOptions) :
    Gives (openColumnOf s id options) (s.column id options) := by
  rw [openColumnOf, Segment.column, hfile]
  cases s.footer.columns[id]? with
  | some entry => exact gives_openColumn hsize options entry s.numRows
  | none => exact .throw _

theorem gives_shortKeys : Gives (shortKeys s) s.shortKeys := by
  rw [shortKeys, Segment.shortKeys, hfile]
  cases s.footer.shortKeys with
  | none => exact .pure none
  | some p =>
      refine (gives_readAt hsize _ _).bind fun data _ => ?_
      have hparse : Gives (answer (shortKeyIndex data) data) (ShortKeyIndex.parse data) := by
        rw [Gives, answer, shortKeyIndex_eq, whole, ShortKeyIndex.parse]
        cases ShortKeyIndex.decode data <;> rfl
      exact hparse.bind fun index _ => .check fun _ => .pure (some index)

theorem gives_rows (options : ReadOptions) : Gives (rows s options) (s.rows options) :=
  (Gives.mapM fun id _ => gives_openColumnOf hsize hfile id options).bind fun _ _ => .pure _

end

end Columnar.Machine
