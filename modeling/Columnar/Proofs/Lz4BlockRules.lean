import Columnar.Proofs.IndexParsing
import Columnar.Proofs.Lz4RoundTrip

/-! # The rules of compressed blocks

What a block stands for is told by rules that keep no state but the output so far. Blocks expand as
the rules say and in no other way, so that the check of the size in front of a block, which is made
before anything is expanded, refuses none that is right. -/

namespace Columnar.Lz4

/-! ## Lengths -/

/-- A length below 15 stands in half a token. A length from 15 on goes on in the bytes behind: 255
any number of times, then a last byte below that. -/
inductive Spells : (nibble : ℕ) → (tail : Bytes) → (n : ℕ) → Prop where
  | short {n : ℕ} (lt : n < 15) : Spells n [] n
  | long (k : ℕ) {b : UInt8} (ne : b ≠ 255) :
      Spells 15 (List.replicate k 255 ++ [b]) (15 + 255 * k + b.toNat)

theorem of_lengthFrom_eq_some {bs : Bytes} {n m : ℕ}
    {rest : { rest : Bytes // rest.length < bs.length }} (h : lengthFrom n bs = some (m, rest)) :
    ∃ k b, b ≠ 255 ∧ bs = List.replicate k 255 ++ b :: rest.1 ∧ m = n + 255 * k + b.toNat := by
  induction bs generalizing n with
  | nil => cases h
  | cons b bs ih =>
      rw [lengthFrom] at h
      split at h
      next hb =>
        obtain ⟨⟨m', rest'⟩, hfrom, heq⟩ := Option.map_eq_some_iff.mp h
        cases heq
        obtain ⟨k, last, hne, hbs, hm⟩ := ih hfrom
        refine ⟨k + 1, last, hne, ?_, by omega⟩
        rw [hb, List.replicate_succ, List.cons_append]
        exact congrArg (255 :: ·) hbs
      next hb =>
        cases h
        exact ⟨0, b, hb, rfl, by omega⟩

theorem of_length?_eq_some {nibble n : ℕ} {bs : Bytes}
    {rest : { rest : Bytes // rest.length ≤ bs.length }} (hnibble : nibble < 16)
    (h : length? nibble bs = some (n, rest)) :
    ∃ tail, bs = tail ++ rest.1 ∧ Spells nibble tail n := by
  rw [length?] at h
  split at h
  next hfull =>
    obtain ⟨⟨m, rest'⟩, hfrom, heq⟩ := Option.map_eq_some_iff.mp h
    cases heq
    obtain ⟨k, b, hne, hbs, rfl⟩ := of_lengthFrom_eq_some hfrom
    refine ⟨List.replicate k 255 ++ [b], by simpa using hbs, ?_⟩
    rw [hfull]
    exact .long k hne
  next hpart =>
    cases h
    exact ⟨[], rfl, .short (by omega)⟩

theorem Spells.length?_eq_some {nibble n : ℕ} {tail : Bytes} (h : Spells nibble tail n)
    (rest : Bytes) : ∃ hle, length? nibble (tail ++ rest) = some (n, ⟨rest, hle⟩) := by
  cases h with
  | short hlt => exact ⟨le_rfl, by rw [length?, if_neg (by omega)]; rfl⟩
  | @long k b hne =>
      obtain ⟨hlt, hfrom⟩ := lengthFrom_replicate k hne rest 15
      have htail : List.replicate k 255 ++ [b] ++ rest = List.replicate k 255 ++ b :: rest := by
        simp
      rw [htail]
      exact ⟨hlt.le, by rw [length?, if_pos rfl, hfrom]; rfl⟩

/-! ## Matches -/

/-- Each byte of the copy is the one `offset` places before it, in the output or in the copy
itself. -/
def Copied (offset : ℕ) (out copy : Bytes) : Prop :=
  ∀ i < copy.length, copy[i]? = (out ++ copy)[out.length + i - offset]?

theorem copied_cons {offset : ℕ} {out copy : Bytes} {b : UInt8} (hpos : 0 < offset)
    (hle : offset ≤ out.length) : Copied offset out (b :: copy) ↔
      out[out.length - offset]? = some b ∧ Copied offset (out ++ [b]) copy := by
  have hjoin : out ++ b :: copy = out ++ [b] ++ copy := by simp
  have hfirst : (out ++ b :: copy)[out.length + 0 - offset]? = out[out.length - offset]? :=
    List.getElem?_append_left (by omega)
  have hplace : ∀ i, out.length + (i + 1) - offset = (out ++ [b]).length + i - offset := by
    intro i
    rw [List.length_append, List.length_singleton]
    omega
  constructor
  · intro h
    refine ⟨?_, fun i hi => ?_⟩
    · rw [← hfirst, ← h 0 (by simp)]
      rfl
    · rw [← hjoin, ← hplace, ← h (i + 1) (by simpa using hi)]
      rfl
  · rintro ⟨hb, h⟩ i hi
    cases i with
    | zero =>
        rw [hfirst, hb]
        rfl
    | succ i =>
        rw [hplace, hjoin, ← h i (by simpa using hi)]
        rfl

theorem getElem?_back {offset : ℕ} {out : Array UInt8} (hpos : 0 < offset)
    (hle : offset ≤ out.size) :
    out.toList[out.toList.length - offset]? = some (out.getD (out.size - offset) 0) := by
  have hlt : out.size - offset < out.size := by omega
  simp [Array.getD, hlt]

/-- There is one copy of each length, which is what is copied back. -/
theorem exists_copied {offset : ℕ} (hpos : 0 < offset) (n : ℕ) {out : Array UInt8}
    (hle : offset ≤ out.size) : ∃ copy : Bytes, copy.length = n ∧ Copied offset out.toList copy ∧
      (copyBack offset n out).toList = out.toList ++ copy := by
  induction n generalizing out with
  | zero =>
      refine ⟨[], rfl, fun i hi => ?_, ?_⟩
      · cases hi
      · rw [copyBack, List.append_nil]
  | succ n ih =>
      set b := out.getD (out.size - offset) 0 with hb
      have hle' : offset ≤ (out.push b).size := by
        rw [Array.size_push]
        omega
      obtain ⟨copy, hlen, hcopied, hback⟩ := ih hle'
      rw [Array.toList_push] at hcopied hback
      refine ⟨b :: copy, by simp [hlen], ?_, ?_⟩
      · exact (copied_cons hpos (by simpa using hle)).mpr ⟨getElem?_back hpos hle, hcopied⟩
      · rw [copyBack, hback]
        simp

theorem Copied.eq {offset : ℕ} (hpos : 0 < offset) {out copy copy' : Bytes}
    (hle : offset ≤ out.length) (h : Copied offset out copy) (h' : Copied offset out copy')
    (hlen : copy.length = copy'.length) : copy = copy' := by
  induction copy generalizing out copy' with
  | nil => exact (List.eq_nil_of_length_eq_zero hlen.symm).symm
  | cons b copy ih =>
      cases copy' with
      | nil => cases hlen
      | cons b' copy' =>
          obtain ⟨hb, h⟩ := (copied_cons hpos hle).mp h
          obtain ⟨hb', h'⟩ := (copied_cons hpos hle).mp h'
          obtain rfl : b = b' := Option.some.inj (hb.symm.trans hb')
          rw [ih (by rw [List.length_append]; omega) h h' (Nat.succ.inj hlen)]

/-- A match that starts one byte back repeats that byte. -/
theorem copied_replicate (b : UInt8) (n : ℕ) : Copied 1 [b] (List.replicate n b) := by
  intro i hi
  have hjoin : [b] ++ List.replicate n b = List.replicate (n + 1) b := rfl
  rw [List.length_replicate] at hi
  rw [hjoin, List.length_singleton, Nat.add_sub_cancel_left, List.getElem?_replicate_of_lt hi,
    List.getElem?_replicate_of_lt (Nat.lt_succ_of_lt hi)]

/-! ## Blocks -/

/-- What a block expands to behind the output so far. A token tells how many literals follow. If
the block goes on behind them, a match comes next: how far back it starts, and how long it is. -/
inductive Expands : (out block full : Bytes) → Prop where
  | last {out tail literals : Bytes} {token : UInt8}
      (length : Spells (token.toNat / 16) tail literals.length) :
      Expands out (token :: (tail ++ literals)) (out ++ literals)
  | sequence {out tail literals tail' copy rest full : Bytes} {token low high : UInt8} {extra : ℕ}
      (length : Spells (token.toNat / 16) tail literals.length)
      (offset_pos : 0 < low.toNat + 256 * high.toNat)
      (offset_le : low.toNat + 256 * high.toNat ≤ (out ++ literals).length)
      (matchLength : Spells (token.toNat % 16) tail' extra)
      (copy_length : copy.length = extra + 4)
      (copied : Copied (low.toNat + 256 * high.toNat) (out ++ literals) copy)
      (more : Expands (out ++ literals ++ copy) rest full) :
      Expands out (token :: (tail ++ (literals ++ low :: high :: (tail' ++ rest)))) full

theorem Expands.length_le {out block full : Bytes} (h : Expands out block full) :
    out.length ≤ full.length := by
  induction h with
  | last => simp
  | sequence _ _ _ _ _ _ _ ih =>
      simp only [List.length_append] at ih
      omega

theorem expands_of_expandOnto (capacity : ℕ) (block : Bytes) (out : Array UInt8) :
    ∀ {full}, expandOnto capacity block out = .ok full →
      Expands out.toList block full.toList := by
  fun_induction expandOnto capacity block out <;> intro full h <;> try cases h
  case case5.refl out token bs n bs' hfewer hlen hthere hroom out' hdrop =>
      have hn : n ≤ bs'.length := by simpa using hthere
      have htoken := token.toNat_lt
      obtain ⟨tail, hbs, hspells⟩ := of_length?_eq_some (by omega) hlen
      have hlength : n = bs'.length := hn.antisymm (List.drop_eq_nil_iff.mp hdrop)
      simp only [out', hlength, List.take_length, Array.toList_appendList, hbs]
      exact .last (hlength ▸ hspells)
  case case11 out token bs n bs' hfewer hlit hthere hroom out' low high bs'' hdrop offset hzero
      extra rest hfewer' hlen m hroom' hstart ih =>
      have hn : n ≤ bs'.length := by simpa using hthere
      have htoken := token.toNat_lt
      obtain ⟨tail, hbs, hspells⟩ := of_length?_eq_some (by omega) hlit
      obtain ⟨tail', hbs'', hspells'⟩ := of_length?_eq_some (Nat.mod_lt _ (by omega)) hlen
      have hpos : 0 < offset := Nat.pos_of_ne_zero hzero
      have hout : out'.toList = out.toList ++ bs'.take n := Array.toList_appendList
      obtain ⟨copy, hcopy, hcopied, hback⟩ := exists_copied hpos m (Nat.le_of_not_lt hstart)
      have hmore := ih h
      rw [hback, hout] at hmore
      rw [hout] at hcopied
      have hblock : bs = tail ++ (bs'.take n ++ low :: high :: (tail' ++ rest)) := by
        rw [← hbs'', ← hdrop, List.take_append_drop]
        exact hbs
      rw [hblock]
      have hlength : (bs'.take n).length = n := List.length_take_of_le hn
      refine .sequence ?_ hpos ?_ hspells' hcopy hcopied hmore
      · rw [hlength]
        exact hspells
      · rw [← hout, Array.length_toList]
        exact Nat.le_of_not_lt hstart

theorem Expands.expandOnto_eq {block full : Bytes} {capacity : ℕ} (hfit : full.length ≤ capacity)
    {before : Bytes} (h : Expands before block full) :
    ∀ {out : Array UInt8}, out.toList = before →
      expandOnto capacity block out = .ok full.toArray := by
  induction h with
  | @last before tail literals token hspells =>
      rintro out rfl
      obtain ⟨hle, hlen⟩ := hspells.length?_eq_some literals
      have hroom : out.size + literals.length ≤ capacity := by
        rwa [List.length_append, Array.length_toList] at hfit
      rw [expandOnto_literals hlen hroom]
      refine congrArg Except.ok (Array.ext' ?_)
      rw [Array.toList_appendList]
  | @sequence before tail literals tail' copy rest full token low high extra hspells hpos hback
      hspells' hcopy hcopied hmore ih =>
      rintro out rfl
      obtain ⟨hle, hlen⟩ :=
        hspells.length?_eq_some (literals ++ low :: high :: (tail' ++ rest))
      obtain ⟨hle', hlen'⟩ := hspells'.length?_eq_some rest
      have hwhole := hmore.length_le
      simp only [List.length_append, Array.length_toList] at hwhole hback
      have hsize : (out ++ literals).size = out.size + literals.length := size_appendList _ _
      -- what is copied back is the only copy that the rules allow
      have hlist : (out ++ literals).toList = out.toList ++ literals := Array.toList_appendList
      obtain ⟨copy', hlength, hcopied', heq⟩ :=
        exists_copied hpos (extra + 4) (hback.trans hsize.ge)
      rw [hlist] at hcopied' heq
      have hsame : copy' = copy := hcopied'.eq hpos (by simpa using hback) hcopied
        (hlength.trans hcopy.symm)
      rw [expandOnto_match hlen hlen' rfl hpos hback (by omega)]
      exact ih hfit (by rw [heq, hsame])

/-- Blocks expand as the rules say, if there is room. -/
theorem expand_eq_ok_iff {capacity : ℕ} {block data : Bytes} :
    expand capacity block = .ok data ↔ Expands [] block data ∧ data.length ≤ capacity := by
  constructor
  · intro h
    refine ⟨?_, (length_expand_le h).2⟩
    unfold expand at h
    cases hout : expandOnto capacity block #[] with
    | error e =>
        rw [hout] at h
        cases h
    | ok full =>
        rw [hout] at h
        cases h
        exact expands_of_expandOnto capacity block #[] hout
  · rintro ⟨h, hfit⟩
    rw [expand, h.expandOnto_eq hfit rfl]
    rfl

/-- No block stands for more than 255 times its length. -/
theorem Expands.length_le_mul {block data : Bytes} (h : Expands [] block data) :
    data.length ≤ 255 * block.length :=
  (length_expand_le (expand_eq_ok_iff.mpr ⟨h, le_rfl⟩)).1

end Columnar.Lz4

namespace Columnar.Compression

/-- What is decompressed is what the rules say of the block behind the size, if the size is neither
too small for that nor larger than any block of this length can expand to. -/
theorem lz4_decompress_eq_ok_iff {bytes data : Bytes} : lz4.decompress bytes = .ok data ↔
    ∃ claimed block, claimed < 2 ^ 32 ∧ bytes = Bytes.little 4 claimed ++ block ∧
      claimed ≤ 255 * block.length + 16 ∧ Lz4.Expands [] block data ∧ data.length ≤ claimed := by
  constructor
  · intro h
    simp only [decompress] at h
    split at h
    next => cases h
    next => cases h
    next claimed block hword =>
      obtain ⟨hbytes, hclaimed⟩ := Decoder.spells_word hword
      split at h
      next => cases h
      next hroom =>
        cases hexpand : Lz4.expand claimed block with
        | error e =>
            rw [hexpand] at h
            cases h
        | ok found =>
            rw [hexpand] at h
            cases h
            rw [maxRatio] at hroom
            obtain ⟨hrules, hfit⟩ := Lz4.expand_eq_ok_iff.mp hexpand
            exact ⟨claimed, block, hclaimed, hbytes, by omega, hrules, hfit⟩
  · rintro ⟨claimed, block, hclaimed, rfl, hroom, hrules, hfit⟩
    have hsize := Decoder.reads_word (k := 4) hclaimed "lz4 size prefix" block
    have hroom' : ¬ block.length * maxRatio + 16 < claimed := by
      rw [maxRatio]
      omega
    simp only [decompress, hsize, hroom', if_false,
      Lz4.expand_eq_ok_iff.mpr ⟨hrules, hfit⟩]
    rfl

end Columnar.Compression

namespace Columnar

/-- The check of the size refuses no block that is right: whatever the rules say of a block comes
out if its length stands in front. What comes out is never longer than the size in front, nor than
255 times the block and 16 bytes. -/
theorem right_blocks_decompress :
    (∀ block data, Lz4.Expands [] block data → data.length < 2 ^ 32 →
      ¬ block.length * Compression.maxRatio + 16 < data.length ∧
        Compression.lz4.decompress (Bytes.little 4 data.length ++ block) = .ok data) ∧
    ∀ bytes data, Compression.lz4.decompress bytes = .ok data →
      ∃ claimed block, bytes = Bytes.little 4 claimed ++ block ∧ claimed < 2 ^ 32 ∧
        Lz4.Expands [] block data ∧ data.length ≤ claimed ∧
        data.length ≤ 255 * block.length + 16 := by
  constructor
  · intro block data hrules hsize
    have hratio := hrules.length_le_mul
    refine ⟨by rw [Compression.maxRatio]; omega, ?_⟩
    exact Compression.lz4_decompress_eq_ok_iff.mpr
      ⟨data.length, block, hsize, rfl, by omega, hrules, le_rfl⟩
  · intro bytes data h
    obtain ⟨claimed, block, hclaimed, hbytes, -, hrules, hfit⟩ :=
      Compression.lz4_decompress_eq_ok_iff.mp h
    have hratio := hrules.length_le_mul
    exact ⟨claimed, block, hbytes, hclaimed, hrules, hfit, by omega⟩

/-- A run of one byte, for which the length of the match takes two more bytes, and another byte. -/
theorem right_blocks_decompress_run :
    let block : Bytes := [31, 97, 1, 0, 255, 0, 16, 98]
    let data : Bytes := List.replicate 275 97 ++ [98]
    Lz4.Expands [] block data ∧ data.length < 2 ^ 32 ∧
      Compression.lz4.decompress (Bytes.little 4 276 ++ block) = .ok data := by
  intro block data
  have hlast : Lz4.Expands (List.replicate 275 97) [16, 98] data :=
    @Lz4.Expands.last _ [] [98] 16 (.short (by decide))
  have hrules : Lz4.Expands [] block data :=
    @Lz4.Expands.sequence [] [] [97] [255, 0] (List.replicate 274 97) [16, 98] data 31 1 0 270
      (.short (by decide)) (by decide) (by decide) (.long 1 (by decide)) List.length_replicate
      (Lz4.copied_replicate 97 274) hlast
  have hlength : data.length = 276 := by
    simp only [data, List.length_append, List.length_replicate, List.length_singleton]
  have hsize : data.length < 2 ^ 32 := by omega
  obtain ⟨-, hdata⟩ := right_blocks_decompress.1 block data hrules hsize
  rw [hlength] at hdata
  exact ⟨hrules, hsize, hdata⟩

end Columnar
