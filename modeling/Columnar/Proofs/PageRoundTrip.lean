import Columnar.Page
import Columnar.Proofs.Lz4RoundTrip
import Columnar.Proofs.PageValues

/-! # Pages come back

Cells are woven together again from their null map and their values, and a page reads as the cells
that it was made of. -/

namespace Columnar.Page

open Decoder (Reads)

/-! ## Pages of cells -/

def nullBits (cells : List Cell) : List Nat := cells.map fun c => if c.isNone then 1 else 0

/-- Whether any cell is null, then a bit for each cell if one is. -/
def nullMap (cells : List Cell) : Bytes :=
  if cells.any Option.isNone then 1 :: pack 1 (nullBits cells) else [0]

/-- A page without its compression and checksum. -/
def body (f : Field) (e : Encoding) (cells : List Cell) : Except Error Bytes := do
  let values ← encodeValues f e (cells.filterMap id)
  return Varint.encode cells.length ++ nullMap cells ++ values

def encode [Lz4.Compressor] (f : PageFormat) (cells : List Cell) : Except Error Bytes := do
  let bytes ← body f.field f.encoding cells
  return withChecksum (f.compression.compress bytes)

/-! ## Null maps -/

/-- In a byte without higher bits, to set a bit is to add its value. -/
theorem toNat_or_bit {b : UInt8} {k : ℕ} (hk : k < 8) (hb : b.toNat < 2 ^ k) :
    (b ||| 1 <<< UInt8.ofNat k).toNat = b.toNat + 2 ^ k := by
  have hpow : 2 ^ k < 256 := Nat.pow_lt_pow_right (by omega) hk
  have hshift : (UInt8.ofNat k).toNat % 8 = k := by
    rw [UInt8.toNat_ofNat']
    omega
  have hbit : ((1 : UInt8) <<< UInt8.ofNat k).toNat = 2 ^ k := by
    rw [UInt8.toNat_shiftLeft, hshift]
    simp [Nat.shiftLeft_eq, Nat.mod_eq_of_lt hpow]
  have hor := Nat.two_pow_add_eq_or_of_lt hb 1
  rw [UInt8.toNat_or, hbit, Nat.or_comm, Nat.add_comm]
  simpa using hor.symm

/-- In a bitmap without later bits, to set the bit of a row is to add its value. -/
theorem toNat_setBit {bits : Array UInt8} {row : ℕ} (hrow : row / 8 < bits.size)
    (hlow : Bytes.toNat bits.toList < 2 ^ row) :
    Bytes.toNat (setBit bits row).toList = Bytes.toNat bits.toList + 2 ^ row := by
  have hpow : 2 ^ row = 256 ^ (row / 8) * 2 ^ (row % 8) := by
    rw [bytes_mul_two_pow, Nat.div_add_mod]
  have hlen : row / 8 < bits.toList.length := by rwa [Array.length_toList]
  have htake : (bits.toList.take (row / 8)).length = row / 8 := List.length_take_of_le hlen.le
  have hsplit : bits.toList = bits.toList.take (row / 8) ++
      bits.toList[row / 8] :: bits.toList.drop (row / 8 + 1) := by
    rw [← List.drop_eq_getElem_cons, List.take_append_drop]
  have hbyte : bits.toList[row / 8].toNat < 2 ^ (row % 8) := by
    rw [hsplit, Bytes.toNat_append, htake, Bytes.toNat, hpow] at hlow
    refine Nat.lt_of_mul_lt_mul_left (a := 256 ^ (row / 8)) (lt_of_le_of_lt ?_ hlow)
    rw [Nat.mul_add]
    omega
  rw [setBit, Array.toList_modify, List.modify_eq_take_cons_drop hlen, Bytes.toNat_append, htake,
    Bytes.toNat, toNat_or_bit (Nat.mod_lt row (by omega)) hbyte]
  conv_rhs => rw [hsplit, Bytes.toNat_append, htake, Bytes.toNat, hpow]
  ring

/-- The bits of nulls go behind those that are set. -/
theorem toNat_markNulls (nulls : List Bool) : ∀ (row : ℕ) (bits : Array UInt8),
    row + nulls.length ≤ 8 * bits.size → Bytes.toNat bits.toList < 2 ^ row →
      (markNulls row nulls bits).size = bits.size ∧
      Bytes.toNat (markNulls row nulls bits).toList =
        Bytes.toNat bits.toList + 2 ^ row * Nat.ofDigits 2 (nulls.map Bool.toNat) := by
  induction nulls with
  | nil =>
      intro row bits _ _
      simp [markNulls]
  | cons null nulls ih =>
      intro row bits hsize hlow
      rw [List.length_cons] at hsize
      rw [markNulls, List.map_cons, Nat.ofDigits_cons]
      cases null with
      | false =>
          have hnext : Bytes.toNat bits.toList < 2 ^ (row + 1) :=
            hlow.trans (Nat.pow_lt_pow_right (by omega) (by omega))
          obtain ⟨hsame, hall⟩ := ih (row + 1) bits (by omega) hnext
          rw [if_neg Bool.false_ne_true, hall]
          refine ⟨hsame, ?_⟩
          rw [Bool.toNat_false, pow_succ]
          ring
      | true =>
          have hset : Bytes.toNat (setBit bits row).toList = Bytes.toNat bits.toList + 2 ^ row :=
            toNat_setBit (by omega) hlow
          have hsize' : (setBit bits row).size = bits.size := Array.size_modify ..
          have hnext : Bytes.toNat (setBit bits row).toList < 2 ^ (row + 1) := by
            rw [hset, pow_succ]
            omega
          obtain ⟨hsame, hall⟩ := ih (row + 1) (setBit bits row) (by omega) hnext
          rw [if_pos rfl, hall, hset]
          refine ⟨hsame.trans hsize', ?_⟩
          rw [Bool.toNat_true, pow_succ]
          ring

/-- Bit after bit a bitmap becomes the packed flags. -/
theorem bitmap_eq (nulls : List Bool) : bitmap nulls = pack 1 (nulls.map Bool.toNat) := by
  have hzeros : Bytes.toNat (List.replicate (bytesFor nulls.length) 0) = 0 := by
    induction bytesFor nulls.length with
    | zero => rfl
    | succ n ih => simp [List.replicate_succ, Bytes.toNat, ih]
  have hroom : 0 + nulls.length ≤ 8 * bytesFor nulls.length := by
    rw [bytesFor]
    omega
  obtain ⟨hsize, hnat⟩ := toNat_markNulls nulls 0 (Array.replicate (bytesFor nulls.length) 0)
    (by rwa [Array.size_replicate]) (by simp [hzeros])
  have hbits : ∀ b ∈ nulls.map Bool.toNat, b < 2 ^ 1 := by
    intro b hb
    obtain ⟨null, -, rfl⟩ := List.mem_map.mp hb
    exact null.toNat_lt
  apply Bytes.toNat_inj
  · rw [bitmap, Array.length_toList, hsize, Array.size_replicate, length_pack, List.length_map,
      Nat.mul_one]
  · rw [bitmap, hnat, toNat_pack hbits]
    simp [hzeros]

/-! ## Nulls and values apart -/

private theorem weaveOnto_eq (cells : List Cell) : ∀ done,
    weaveOnto (cells.map Option.isNone) (cells.filterMap id) done = done.reverse ++ cells := by
  induction cells with
  | nil =>
      intro done
      simp [weaveOnto]
  | cons c cells ih =>
      intro done
      cases c with
      | none => simpa [weaveOnto] using ih (none :: done)
      | some v => simpa [weaveOnto] using ih (some v :: done)

theorem weave_eq (cells : List Cell) :
    weave (cells.map Option.isNone) (cells.filterMap id) = cells := by
  rw [weave, weaveOnto_eq, List.reverse_nil, List.nil_append]

theorem count_false_isNone (cells : List Cell) :
    (cells.map Option.isNone).count false = (cells.filterMap id).length := by
  induction cells with
  | nil => rfl
  | cons c cells ih => cases c <;> simp [ih]

theorem reads_nullMap (cells : List Cell) :
    Reads (decodeNulls cells.length) (nullMap cells) (cells.map Option.isNone) := by
  by_cases hany : cells.any Option.isNone = true
  · have hbits : ∀ b ∈ nullBits cells, b < 2 ^ 1 := by
      intro b hb
      obtain ⟨c, -, rfl⟩ := List.mem_map.mp hb
      split <;> omega
    have hlen : (nullBits cells).length = cells.length := List.length_map _
    have hunpack : unpack 1 cells.length (pack 1 (nullBits cells)) = nullBits cells := by
      have h := unpack_pack_append hbits []
      rwa [List.append_nil, hlen] at h
    have htake := Decoder.reads_take (pack 1 (nullBits cells)) "null bitmap"
    rw [length_pack, hlen, Nat.mul_one] at htake
    rw [nullMap, if_pos hany]
    apply (Decoder.reads_flag true _).bind_cons
    apply htake.bind_pure
    rw [hunpack, nullBits, List.map_map]
    congr 1
    apply List.map_congr_left
    intro c _
    cases c <;> simp
  · have hnone : cells.map Option.isNone = List.replicate cells.length false := by
      refine List.eq_replicate_iff.mpr ⟨List.length_map _, ?_⟩
      intro b hb
      obtain ⟨c, hc, rfl⟩ := List.mem_map.mp hb
      simp only [List.any_eq_true, not_exists, not_and, Bool.not_eq_true] at hany
      exact hany c hc
    rw [nullMap, if_neg hany, hnone]
    exact (Decoder.reads_flag false _).bind_pure rfl

/-! ## Bodies and pages -/

/-- Cells that a page can hold: nulls, and values that it can be told to hold. -/
def Takes (f : Field) (e : Encoding) (cells : List Cell) : Prop :=
  ∀ v, some v ∈ cells → f.Holds e v

/-- No string of the cells is longer than a varint tells. -/
def Short (cells : List Cell) : Prop := ∀ bs, some (.bytes bs) ∈ cells → bs.length < 2 ^ 64

section

variable {f : Field} {e : Encoding} {cells : List Cell}

/-- What holds of all values among the cells holds of the values that are stored. -/
theorem forall_values {P : Value → Prop} (h : ∀ v, some v ∈ cells → P v) :
    ∀ v ∈ cells.filterMap id, P v := by
  intro v hv
  obtain ⟨c, hc, rfl⟩ := List.mem_filterMap.mp hv
  exact h v hc

theorem Takes.kinds (h : Takes f e cells) : ∀ v, some v ∈ cells → v.kind = f.type.kind :=
  fun v hv => (h v hv).kind_eq

theorem Takes.storable (h : Takes f e cells) (hshort : Short cells) :
    Storable f e (cells.filterMap id) := by
  refine ⟨forall_values h, fun bs hbs => ?_⟩
  obtain ⟨c, hc, rfl⟩ := List.mem_filterMap.mp hbs
  exact hshort bs hc

/-- Values of the type of the field make a body. -/
theorem body_eq_ok (he : e.supports f.type = true)
    (h : ∀ v, some v ∈ cells → v.kind = f.type.kind) : ∃ bytes, body f e cells = .ok bytes := by
  obtain ⟨values, hvalues⟩ := encodeValues_eq_ok he (forall_values h)
  exact ⟨_, by rw [body, hvalues]; rfl⟩

/-- No string is longer than the body that holds it. -/
theorem length_le_body {bytes bs : Bytes} (he : e.supports f.type = true) (h : Takes f e cells)
    (hbody : body f e cells = .ok bytes) (hbs : some (.bytes bs) ∈ cells) :
    bs.length ≤ bytes.length := by
  have hkinds := forall_values h.kinds
  obtain ⟨values, hvalues⟩ := encodeValues_eq_ok he hkinds
  rw [body, hvalues] at hbody
  cases hbody
  have hmem : Value.bytes bs ∈ cells.filterMap id := List.mem_filterMap.mpr ⟨_, hbs, rfl⟩
  have hle := length_le_encodeValues he hkinds hvalues hmem
  simp only [List.length_append]
  omega

/-- The steps of decoding a body, once the number of its cells is known. -/
theorem decodeBody_eq {values : Bytes} (hrows : cells.length ≤ maxRows) (rows : ℕ) :
    decodeBody f e rows (Varint.encode cells.length ++ nullMap cells ++ values) =
      if cells.length ≠ rows then
        .error (.corruption (.pageCount cells.length rows)) (nullMap cells ++ values)
      else (do
        let nulls ← decodeNulls rows
        let values ← decodeValues f e (nulls.count false)
        let left ← Decoder.remaining
        if left ≠ 0 then Decoder.fail (.pageTail left)
        return weave nulls values) (nullMap cells ++ values) := by
  have hrows' : cells.length ≤ 2 ^ 20 := hrows
  rw [decodeBody, List.append_assoc, (Varint.reads_encode (by omega)).bind_append]
  split <;> rfl

theorem decodeBody_body {bytes : Bytes} (he : e.supports f.type = true) (h : Takes f e cells)
    (hrows : cells.length ≤ maxRows) (hshort : Short cells) (hbody : body f e cells = .ok bytes) :
    decodeBody f e cells.length bytes = .ok cells [] := by
  obtain ⟨values, hvalues⟩ := encodeValues_eq_ok he (forall_values h.kinds)
  rw [body, hvalues] at hbody
  cases hbody
  have hrows' : cells.length ≤ 2 ^ 20 := hrows
  have hvs : (cells.filterMap id).length ≤ cells.length := List.length_filterMap_le _ _
  have hread := reads_encodeValues he (h.storable hshort) (by omega) hvalues
  rw [decodeBody_eq hrows, if_neg (not_not.mpr rfl), (reads_nullMap cells).bind_append,
    count_false_isNone, hread.bind_eq]
  change EStateM.Result.ok (weave (cells.map Option.isNone) (cells.filterMap id)) [] = _
  rw [weave_eq]

/-- A body says how many cells it holds. -/
theorem decodeBody_of_ne {bytes : Bytes} {rows : ℕ} (hrows : cells.length ≤ maxRows)
    (hbody : body f e cells = .ok bytes) (hne : cells.length ≠ rows) :
    ∃ rest, decodeBody f e rows bytes =
      .error (.corruption (.pageCount cells.length rows)) rest := by
  cases hvalues : encodeValues f e (cells.filterMap id) with
  | error err => rw [body, hvalues] at hbody; cases hbody
  | ok values =>
      rw [body, hvalues] at hbody
      cases hbody
      exact ⟨_, (decodeBody_eq hrows rows).trans (if_pos hne)⟩

end

theorem stripChecksum_withChecksum (compressed : Bytes) (verify : Bool) :
    stripChecksum (withChecksum compressed) verify = .ok compressed := by
  have hlen : (withChecksum compressed).length = compressed.length + 4 := by simp [withChecksum]
  have hcut : (withChecksum compressed).length - 4 = compressed.length := by omega
  have hshort : ¬ (withChecksum compressed).length < 4 := by omega
  have hword : UInt32.ofNat (Bytes.toNat (Bytes.little 4 (crc32c compressed).toNat)) =
      crc32c compressed := by
    rw [Bytes.toNat_little_of_lt (crc32c compressed).toNat_lt, UInt32.ofNat_toNat]
  simp only [stripChecksum, hshort, if_false, hcut]
  simp only [withChecksum, List.take_left, List.drop_left, hword, if_true, ite_self]

section

variable [Lz4.Compressor] {f : PageFormat} {cells : List Cell} {bytes page : Bytes}

theorem encode_eq_ok (h : ∀ v, some v ∈ cells → v.kind = f.field.type.kind) :
    ∃ page, encode f cells = .ok page := by
  obtain ⟨bytes, hbody⟩ := body_eq_ok f.supported h
  exact ⟨_, by rw [encode, hbody]; rfl⟩

/-- No string of a stored page is too long: the body is stored as it is, or fits the compressed
form. -/
theorem short_of_encode (h : Takes f.field f.encoding cells)
    (hbody : body f.field f.encoding cells = .ok bytes)
    (hfit : f.compression = .lz4 → bytes.length < 2 ^ 32)
    (hpage : encode f cells = .ok page) (hsize : page.length < 2 ^ 32) : Short cells := by
  have hbytes : bytes.length < 2 ^ 32 := by
    cases hc : f.compression with
    | lz4 => exact hfit hc
    | none =>
        rw [encode, hbody, hc] at hpage
        cases hpage
        simp only [withChecksum, Compression.compress, List.length_append] at hsize
        omega
  intro bs hbs
  have hle := length_le_body f.supported h hbody hbs
  omega

/-- The steps of decoding a page, once its checksum is off. -/
theorem decode_eq {rows : ℕ} (hrows : rows ≤ maxRows) (verify : Bool) :
    decode f (withChecksum (f.compression.compress bytes)) rows verify =
      (f.compression.decompress (f.compression.compress bytes) >>= fun bytes =>
        match decodeBody f.field f.encoding rows bytes with
        | .ok cells _ => .ok cells
        | .error e _ => .error e) := by
  have hrows' : ¬ maxRows < rows := by omega
  simp only [decode, hrows', if_false, stripChecksum_withChecksum]
  rfl

/-- A page reads as the cells that it was made of, whether or not its checksum is compared. -/
theorem decode_encode [Lz4.LawfulCompressor] (h : Takes f.field f.encoding cells)
    (hrows : cells.length ≤ maxRows) (hshort : Short cells)
    (hbody : body f.field f.encoding cells = .ok bytes)
    (hfit : f.compression = .lz4 → bytes.length < 2 ^ 32)
    (hpage : encode f cells = .ok page) (verify : Bool) :
    decode f page cells.length verify = .ok cells := by
  rw [encode, hbody] at hpage
  cases hpage
  rw [decode_eq hrows, Compression.decompress_compress _ hfit]
  change (match decodeBody f.field f.encoding cells.length bytes with
    | .ok cells _ => Except.ok cells
    | .error e _ => .error e) = Except.ok cells
  rw [decodeBody_body f.supported h hrows hshort hbody]

/-- A page does not read as one of another number of rows. -/
theorem decode_encode_of_ne [Lz4.LawfulCompressor] {rows : ℕ} (hrows : cells.length ≤ maxRows)
    (hbody : body f.field f.encoding cells = .ok bytes)
    (hfit : f.compression = .lz4 → bytes.length < 2 ^ 32)
    (hpage : encode f cells = .ok page) (hne : rows ≠ cells.length) (verify : Bool) :
    decode f page rows verify =
      .error (.corruption (if maxRows < rows then .pageRows rows maxRows
        else .pageCount cells.length rows)) := by
  rw [encode, hbody] at hpage
  cases hpage
  by_cases hmany : maxRows < rows
  · simp only [decode, if_pos hmany]
    rfl
  · obtain ⟨rest, hother⟩ := decodeBody_of_ne hrows hbody hne.symm
    rw [decode_eq (by omega), Compression.decompress_compress _ hfit, if_neg hmany]
    change (match decodeBody f.field f.encoding rows bytes with
      | .ok cells _ => Except.ok cells
      | .error e _ => .error e) = _
    rw [hother]

end

end Columnar.Page
