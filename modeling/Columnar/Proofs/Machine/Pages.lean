import Columnar.Proofs.Machine.Readers
import Columnar.Proofs.ReadingFailures

/-! # Pages as a machine reads them

Bits are gathered in a word of 128 bits and values cut off its low end; nulls are looked up bit by
bit; a page is sliced by its length. None of this stops, whatever the bytes are. -/

namespace Columnar.Machine

/-! ## Values -/

def wordOf (w k : ℕ) (what : String) : Run Bytes (BitVec w) := do
  let n ← word k what
  return BitVec.ofNat w n

theorem wordOf_eq (w k : ℕ) (what : String) : wordOf w k what = whole (Field.wordOf w k what) := by
  rw [wordOf, Field.wordOf, whole_bind, word_eq]
  rfl

def value (f : Field) : Run Bytes Value := do
  let what := f.type.name
  match f.type with
  | .bool =>
    let b ← byte what
    if b = 0 then return .bool false
    else if b = 1 then return .bool true
    else throw (.corruption (.boolByte b))
  | .tinyint => return .int8 (← wordOf 8 1 what)
  | .smallint => return .int16 (← wordOf 16 2 what)
  | .int => return .int32 (← wordOf 32 4 what)
  | .bigint => return .int64 (← wordOf 64 8 what)
  | .largeint => return .int128 (← wordOf 128 16 what)
  | .float => return .float32 (← wordOf 32 4 what)
  | .double => return .float64 (← wordOf 64 8 what)
  | .date => return .date (← wordOf 32 4 what)
  | .datetime => return .datetime (← wordOf 64 8 what)
  | .decimal =>
    let integer ← wordOf 64 8 what
    let fraction ← wordOf 32 4 what
    return .decimal ⟨integer, fraction⟩
  | .char | .varchar =>
    let length ← varint
    return .bytes (← take length what)

theorem value_eq (f : Field) : value f = whole f.decode := by
  unfold value Field.decode
  cases f.type
  all_goals
    simp only [whole_bind, whole_ite, byte_eq, wordOf_eq, varint_eq, take_eq]
    rfl

/-! ## Bits -/

/-- Takes bytes into the word until it has `width` bits. Where none are left, there are zeros. -/
def refill (width : ℕ) (bytes : Bytes) (acc bits : ℕ) : Option (Bytes × ℕ × ℕ) :=
  if bits < width then do
    let part ← shiftLeft 128 (bytes.headD 0).toNat bits
    let _ ← add 32 bits 8
    refill width bytes.tail (acc ||| part) (bits + 8)
  else return (bytes, acc, bits)
termination_by width - bits

def unpackOnto (width mask : ℕ) : ℕ → Bytes → (acc bits : ℕ) → List ℕ → Option (List ℕ)
  | 0, _, _, _, done => return done.reverse
  | n + 1, bytes, acc, bits, done => do
    let (bytes, acc, bits) ← refill width bytes acc bits
    let low := acc % 2 ^ 64 &&& mask
    let acc ← shiftRight 128 acc width
    let bits ← sub bits width
    unpackOnto width mask n bytes acc bits (low :: done)

/-- The word of 64 bits whose low `w` bits are set. -/
def lowMask (w : ℕ) : Option ℕ :=
  if w = 64 then return 2 ^ 64 - 1
  else do
    let top ← shiftLeft 64 1 w
    sub top 1

def takeBits (w count : ℕ) : Run Bytes (List ℕ) :=
  if 64 < w then throw (.corruption (.bitWidth w))
  else if w = 0 then return List.replicate count 0
  else if 2 ^ 64 ≤ count * w then throw (.corruption .bitRun)
  else do
    let packed ← take (Page.bytesFor (count * w)) "bit-packed values"
    let mask ← lowMask w
    let values ← unpackOnto w mask count packed 0 0 []
    return values

theorem refill_eq {width : ℕ} (hwidth : width ≤ 64) (need : ℕ) :
    ∀ bs acc bits, (width - bits + 7) / 8 = need → acc < 2 ^ bits →
      refill width bs acc bits =
        some (bs.drop need, acc + Bytes.toNat (bs.take need) * 2 ^ bits, bits + 8 * need) := by
  induction need with
  | zero =>
      intro bs acc bits hneed _
      have hfull : ¬ bits < width := by omega
      rw [refill, if_neg hfull]
      simp [Bytes.toNat]
  | succ need ih =>
      intro bs acc bits hneed hacc
      have hmore : bits < width := by omega
      have hbyte : (bs.headD 0).toNat < 2 ^ 8 := (bs.headD 0).toNat_lt
      have hacc' := Page.add_mul_two_pow_lt hacc hbyte
      have hword : (bs.headD 0).toNat * 2 ^ bits < 2 ^ 128 := by
        have hle : 2 ^ (bits + 8) ≤ 2 ^ 128 := Nat.pow_le_pow_right (by norm_num) (by omega)
        omega
      have htake : Bytes.toNat (bs.take (need + 1)) =
          (bs.headD 0).toNat + 256 * Bytes.toNat (bs.tail.take need) := by
        cases bs <;> simp [Bytes.toNat]
      rw [refill, if_pos hmore, shiftLeft_eq (by omega) hword, add_eq (by omega)]
      simp only [Option.bind_eq_bind, Option.bind_some]
      rw [or_mul_two_pow hacc, ih bs.tail _ _ (by omega) hacc', htake, List.drop_tail]
      congr 3
      · ring
      · ring

theorem unpackOnto_eq {width : ℕ} (hwidth : width ≤ 64) (n : ℕ) :
    ∀ bs acc bits done, acc < 2 ^ bits →
      unpackOnto width (2 ^ width - 1) n bs acc bits done =
        some (Page.unpackOnto width n bs acc bits done) := by
  induction n with
  | zero => exact fun bs acc bits done _ => rfl
  | succ n ih =>
      intro bs acc bits done hacc
      set need := (width - bits + 7) / 8 with hneed
      set sum := acc + Bytes.toNat (bs.take need) * 2 ^ bits with hsum
      have hlow : sum % 2 ^ 64 &&& (2 ^ width - 1) = sum % 2 ^ width := by
        rw [Nat.and_two_pow_sub_one_eq_mod, Nat.mod_mod_of_dvd _ (pow_dvd_pow 2 hwidth)]
      have htaken : Bytes.toNat (bs.take need) < 2 ^ (8 * need) := by
        rw [pow_mul]
        refine (Bytes.toNat_lt _).trans_le (Nat.pow_le_pow_right (by norm_num) ?_)
        exact List.length_take_le need bs
      have hhigh : sum / 2 ^ width < 2 ^ (bits + 8 * need - width) := by
        apply Nat.div_lt_of_lt_mul
        rw [← pow_add, Nat.add_sub_of_le (by omega)]
        exact Page.add_mul_two_pow_lt hacc htaken
      rw [unpackOnto, refill_eq hwidth need bs acc bits rfl hacc]
      simp only [Option.bind_eq_bind, Option.bind_some]
      rw [shiftRight_eq (by omega), sub_eq (by omega), hlow]
      exact ih _ _ _ _ hhigh

theorem lowMask_eq {w : ℕ} (h : w ≤ 64) : lowMask w = some (2 ^ w - 1) := by
  unfold lowMask
  split
  next heq =>
    subst heq
    rfl
  next hne =>
    have hword : 1 * 2 ^ w < 2 ^ 64 := by
      rw [Nat.one_mul]
      exact Nat.pow_lt_pow_right (by norm_num) (by omega)
    rw [shiftLeft_eq (by omega) hword]
    simp only [Option.bind_eq_bind, Option.bind_some, Nat.one_mul]
    exact sub_eq Nat.one_le_two_pow

theorem takeBits_eq (w count : ℕ) : takeBits w count = whole (Page.takeBits w count) := by
  have hunpack (packed : Bytes) (hw : w ≤ 64) : (do
      let mask ← lowMask w
      let values ← unpackOnto w mask count packed 0 0 []
      return values : Run Bytes (List ℕ)) = pure (Page.unpack w count packed) := by
    rw [lift_bind (lowMask_eq hw), unpackOnto_eq hw count packed 0 0 [] (by simp)]
    rfl
  rw [takeBits, Page.takeBits]
  simp only [whole_ite, whole_bind, take_eq]
  split
  next => rfl
  next hw =>
    simp only [hunpack _ (Nat.le_of_not_lt hw)]
    rfl

/-! ## Encodings -/

theorem whole_ofExcept {α : Type} (x : Except Error α) :
    whole (Decoder.ofExcept x) = MonadExcept.ofExcept x := by
  cases x <;> rfl

def packed (f : Field) (count : ℕ) : Run Bytes (List Value) := do
  if count = 0 then return []
  let reference ← word64 "frame reference"
  let width ← byte "bit width"
  let distances ← takeBits width.toNat count
  MonadExcept.ofExcept <|
    distances.mapM fun d => f.ofImage (reference + UInt64.ofNat d).toBitVec

theorem packed_eq (f : Field) (count : ℕ) : packed f count = whole (Page.decodePacked f count) := by
  rw [packed, Page.decodePacked]
  simp only [whole_ite, whole_bind, word64_eq, byte_eq, takeBits_eq, whole_ofExcept]
  rfl

def entry : Run Bytes Bytes := do
  let length ← varint
  take length "dictionary entry"

theorem entry_eq : entry = whole Page.entry := by
  rw [entry, Page.entry]
  simp only [whole_bind, varint_eq, take_eq]

def dictionary (f : Field) (count : ℕ) : Run Bytes (List Value) := do
  if count = 0 then return []
  let size ← varint
  let left ← remaining
  if size = 0 ∨ left < size then throw (.corruption (.dictionarySize size left))
  let entries ← times size entry
  unless entries.all (f.fits ·.length) do
    throw (.corruption (.dictionaryEntry f.length.toNat))
  let width ← byte "dictionary code width"
  let codes ← takeBits width.toNat count
  let table := entries.toArray
  MonadExcept.ofExcept <| codes.mapM fun c =>
    match table[c]? with
    | some e => .ok (.bytes e)
    | none => .error (.corruption (.dictionaryCode c size))

theorem dictionary_eq (f : Field) (count : ℕ) :
    dictionary f count = whole (Page.decodeDictionary f count) := by
  rw [dictionary, Page.decodeDictionary]
  simp only [whole_ite, whole_bind, varint_eq, remaining_eq, entry_eq, times_eq, byte_eq,
    takeBits_eq, whole_ofExcept]
  rfl

def values (f : Field) (e : Encoding) (count : ℕ) : Run Bytes (List Value) :=
  match e with
  | .plain => times count (value f)
  | .bitPacked => packed f count
  | .dictionary => dictionary f count

theorem values_eq (f : Field) (e : Encoding) (count : ℕ) :
    values f e count = whole (Page.decodeValues f e count) := by
  cases e with
  | plain => rw [values, Page.decodeValues, value_eq, times_eq]
  | bitPacked => exact packed_eq f count
  | dictionary => exact dictionary_eq f count

/-! ## Nulls -/

/-- Whether a bit is set. -/
def bit (bitmap : Bytes) (i : ℕ) : Option Bool := do
  let b ← index bitmap (i / 8)
  let shifted ← shiftRight 8 b.toNat (i % 8)
  return shifted &&& 1 = 1

def bits (rows : ℕ) (bitmap : Bytes) : Option (List Bool) := (List.range rows).mapM (bit bitmap)

def nulls (rows : ℕ) : Run Bytes (List Bool) := do
  let present ← flag "has_nulls"
  if present then
    let bitmap ← take (Page.bytesFor rows) "null bitmap"
    let found ← bits rows bitmap
    return found
  else return List.replicate rows false

/-- There are bytes enough for the bits of all rows. -/
theorem bits_eq {rows : ℕ} {bitmap : Bytes} (h : bitmap.length = Page.bytesFor rows) :
    bits rows bitmap = some ((Page.unpack 1 rows bitmap).map fun n => decide (n = 1)) := by
  have hlen : ((Page.unpack 1 rows bitmap).map fun n => decide (n = 1)).length = rows := by
    rw [List.length_map, Page.unpack_eq, Page.length_lowDigits]
  conv_lhs => rw [bits, ← hlen]
  refine mapM_range_eq_some fun i x hi => ?_
  obtain ⟨hlt, -⟩ := List.getElem?_eq_some_iff.mp hi
  rw [hlen] at hlt
  have hbyte : i / 8 < bitmap.length := by
    rw [h, Page.bytesFor]
    omega
  have hb : bitmap[i / 8]? = some bitmap[i / 8] := List.getElem?_eq_getElem hbyte
  rw [List.getElem?_map, Page.unpack_eq, Page.getElem?_lowDigits 1 rows _ i hlt, Nat.one_mul,
    pow_one, Page.toNat_bit hb] at hi
  rw [bit, index, hb]
  simp only [Option.bind_eq_bind, Option.bind_some]
  rw [shiftRight_eq (Nat.mod_lt i (by norm_num)), Option.bind_some, Nat.and_one_is_mod]
  exact hi

theorem nulls_eq (rows : ℕ) : nulls rows = whole (Page.decodeNulls rows) := by
  rw [nulls, Page.decodeNulls, whole_bind, flag_eq]
  congr
  funext present
  cases present with
  | false => rfl
  | true =>
      funext bs
      rw [if_pos rfl, if_pos rfl, take_eq]
      refine bind_whole fun bitmap rest htake => ?_
      obtain ⟨-, hlen⟩ := Decoder.take_eq_ok_iff.mp htake
      rw [bits_eq hlen]
      rfl

/-! ## Pages -/

def body (f : Field) (e : Encoding) (rows : ℕ) : Run Bytes (List Cell) := do
  let count ← varint
  if count ≠ rows then throw (.corruption (.pageCount count rows))
  let nulls ← nulls rows
  let values ← values f e (nulls.count false)
  let left ← remaining
  if left ≠ 0 then throw (.corruption (.pageTail left))
  return Page.weave nulls values

theorem body_eq (f : Field) (e : Encoding) (rows : ℕ) :
    body f e rows = whole (Page.decodeBody f e rows) := by
  rw [body, Page.decodeBody]
  simp only [whole_bind, whole_ite, varint_eq, nulls_eq, values_eq, remaining_eq]
  rfl

def stripChecksum (raw : Bytes) (verify : Bool) : Outcome Bytes := do
  if raw.length < 4 then throw (.corruption (.pageWithoutChecksum raw.length))
  let size ← sub raw.length 4
  let compressed ← slice raw 0 size
  let trailer ← slice raw size raw.length
  if verify then
    let stored ← answer (word32 "page checksum") trailer
    let computed := crc32c compressed
    if stored ≠ computed then throw (.checksum stored computed)
    return compressed
  else return compressed

theorem gives_stripChecksum (raw : Bytes) (verify : Bool) :
    Gives (stripChecksum raw verify) (Page.stripChecksum raw verify) := by
  refine .ite (fun _ => rfl) fun hlong => ?_
  have hlong : 4 ≤ raw.length := by omega
  have hle : raw.length - 4 ≤ raw.length := by omega
  refine .lift (sub_eq hlong) (.lift (slice_take hle) (.lift (slice_drop hle) ?_))
  cases verify with
  | false => exact .pure _
  | true =>
      have hlen : (raw.drop (raw.length - 4)).length = 4 := by
        rw [List.length_drop]
        omega
      have hstored : Gives (answer (word32 "page checksum") (raw.drop (raw.length - 4)))
          (.ok (UInt32.ofNat (Bytes.toNat (raw.drop (raw.length - 4))))) := by
        rw [Gives, answer, word32_of_le hlen.ge, List.take_of_length_le hlen.le]
        rfl
      refine .step hstored ?_
      simp only [ite_not, ne_eq]
      exact .ite (fun _ => .pure _) fun _ => rfl

/-- The limit is counted without overflow up to the last word. -/
def decompress (c : Compression) (data : Bytes) : Outcome Bytes :=
  match c with
  | .none => return data
  | .lz4 => do
    let (claimed, block) ← word 4 "lz4 size prefix" data
    match claimed with
    | .error (.corruption cause) => throw (.compression (.noSize cause))
    | .error e => throw e
    | .ok claimed =>
      let limit ← add 64 (min (block.length * Compression.maxRatio) (2 ^ 64 - 1)) 16
      if limit < claimed then throw (.compression (.unreachable block.length claimed))
      else MonadExcept.ofExcept ((Lz4.expand claimed block).mapError .compression)

theorem gives_decompress (c : Compression) {data : Bytes} (h : data.length < 2 ^ 32) :
    Gives (decompress c data) (c.decompress data) := by
  cases c with
  | none => exact .pure data
  | lz4 =>
      have hword : word 4 "lz4 size prefix" data =
          some (settle (Decoder.word 4 "lz4 size prefix" data)) := congrFun (word_eq _ _) data
      simp only [Compression.decompress]
      cases hclaimed : Decoder.word 4 "lz4 size prefix" data with
      | error e rest =>
          rw [hclaimed] at hword
          refine .lift hword ?_
          cases e <;> rfl
      | ok claimed block =>
          rw [hclaimed] at hword
          have hlen : block.length ≤ data.length := by
            obtain ⟨rfl, -⟩ := Decoder.spells_word hclaimed
            simp
          have hmin : min (block.length * Compression.maxRatio) (2 ^ 64 - 1) =
              block.length * Compression.maxRatio := by
            rw [Compression.maxRatio]
            omega
          have hlimit : block.length * Compression.maxRatio + 16 < 2 ^ 64 := by
            rw [Compression.maxRatio]
            omega
          refine .lift hword (.lift (a := block.length * Compression.maxRatio + 16) ?_ ?_)
          · exact hmin.symm ▸ add_eq hlimit
          · exact .ite (fun _ => rfl) fun _ => .ofExcept _

def page (f : PageFormat) (raw : Bytes) (rows : ℕ) (verify : Bool) : Outcome (List Cell) := do
  if Page.maxRows < rows then throw (.corruption (.pageRows rows Page.maxRows))
  let compressed ← stripChecksum raw verify
  let bytes ← decompress f.compression compressed
  answer (body f.field f.encoding rows) bytes

theorem gives_page (f : PageFormat) {raw : Bytes} (h : raw.length < 2 ^ 32) (rows : ℕ)
    (verify : Bool) : Gives (page f raw rows verify) (Page.decode f raw rows verify) := by
  refine .check fun _ => (gives_stripChecksum raw verify).bind fun compressed hstrip => ?_
  have hlen : compressed.length < 2 ^ 32 := by
    rw [(Page.honest_stripChecksum raw verify).holds hstrip, List.length_take]
    omega
  refine (gives_decompress f.compression hlen).bind fun bytes _ => ?_
  rw [body_eq, Gives, answer, whole]
  cases Page.decodeBody f.field f.encoding rows bytes <;> rfl

end Columnar.Machine
