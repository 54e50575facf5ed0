import Columnar.Lz4.Matcher
import Columnar.Proofs.DecodingFailures
import Columnar.Proofs.SegmentReading

/-! # Segments that were cut short

A file is refused as corrupt unless its end passes for a footer. That of a segment that was cut
short may do so, for stored values may spell a footer and its trailer. -/

namespace Columnar

theorem split_at_end (file : Array UInt8) {n : ℕ} (h : n ≤ file.size) :
    ∃ (front : Array UInt8) (back : Bytes), file = front ++ back ∧ back.length = n := by
  refine ⟨(file.toList.take (file.size - n)).toArray, file.toList.drop (file.size - n), ?_, ?_⟩
  · apply Array.ext'
    rw [Array.toList_appendList, List.take_append_drop]
  · rw [List.length_drop, Array.length_toList]
    omega

/-- Twelve bytes that tell the length and the checksum of a footer are its trailer. -/
theorem Footer.eq_trailer {bytes trailer : Bytes} (hlength : trailer.length = trailerSize)
    (hsize : Bytes.toNat (trailer.take 4) = bytes.length)
    (hchecksum : UInt32.ofNat (Bytes.toNat ((trailer.drop 4).take 4)) = crc32c bytes)
    (hmagic : trailer.drop 8 = magic) : trailer = Footer.trailer bytes ∧ bytes.length < 2 ^ 32 := by
  have htwelve : trailer.length = 12 := hlength
  have hsize4 : (trailer.take 4).length = 4 := by simp [htwelve]
  have hchecksum4 : ((trailer.drop 4).take 4).length = 4 := by simp [htwelve]
  have hfirst := Bytes.little_toNat (trailer.take 4)
  have hsecond := Bytes.little_toNat ((trailer.drop 4).take 4)
  have hwords := Bytes.toNat_lt (trailer.take 4)
  have hword := Bytes.toNat_lt ((trailer.drop 4).take 4)
  rw [hsize4] at hfirst hwords
  rw [hchecksum4] at hsecond hword
  have hexact : (UInt32.ofNat (Bytes.toNat ((trailer.drop 4).take 4))).toNat =
      Bytes.toNat ((trailer.drop 4).take 4) := UInt32.toNat_ofNat_of_lt hword
  refine ⟨?_, hsize ▸ hwords⟩
  rw [Footer.trailer, ← hsize, ← hchecksum, hexact, hfirst, hsecond, ← hmagic]
  have hlast : trailer.drop 8 = (trailer.drop 4).drop 4 := by rw [List.drop_drop]
  rw [hlast, List.append_assoc, List.take_append_drop, List.take_append_drop]

namespace Segment

/-- The end of the file passes for a footer, or for one of another version. -/
def EndsInFooter (file : Array UInt8) : Prop :=
  ∃ body bytes, Sealed file body bytes ∧
    ((∃ f, Footer.parse bytes = .ok f ∧ f.KeysWithin body.size) ∨
      ∃ version ∈ bytes.head?, version ≠ Footer.supportedVersion)

variable {file body : Array UInt8} {bytes : Bytes}

/-- A file whose trailer fits no footer is refused. -/
theorem sealed_or_isCorruption (file : Array UInt8) :
    (∃ body bytes, Sealed file body bytes) ∨
      ∃ e, Segment.open (.memory file) = .error e ∧ e.isCorruption = true := by
  by_cases hsmall : (File.memory file).size < Footer.trailerSize
  · refine .inr ⟨.corruption (.fileTooSmall file.size), ?_, rfl⟩
    rw [Segment.open, readTrailer, if_pos hsmall]
    rfl
  · obtain ⟨front, trailer, rfl, hlength⟩ := split_at_end file (Nat.le_of_not_lt hsmall)
    have htrailer := readTrailer_append front hlength
    by_cases hmagic : trailer.drop 8 = Footer.magic
    · rw [if_pos hmagic] at htrailer
      by_cases hlarge : front.size < Bytes.toNat (trailer.take 4)
      · refine .inr ⟨.corruption (.footerTooLarge (Bytes.toNat (trailer.take 4))
          (front ++ trailer).size), ?_, rfl⟩
        have hroom : (File.memory (front ++ trailer)).size - Footer.trailerSize = front.size := by
          change (front ++ trailer).size - _ = _
          rw [Lz4.size_appendList, hlength, Nat.add_sub_cancel]
        rw [Segment.open]
        apply bind_of_eq_ok htrailer
        simp only [hroom]
        exact if_pos hlarge
      · obtain ⟨body, bytes, rfl, hbytes⟩ := split_at_end front (Nat.le_of_not_lt hlarge)
        have hopen := open_append body hlength hbytes.symm hmagic
        rw [appendList_append]
        by_cases hchecksum : UInt32.ofNat (Bytes.toNat ((trailer.drop 4).take 4)) = crc32c bytes
        · obtain ⟨heq, hlt⟩ := Footer.eq_trailer hlength hbytes.symm hchecksum hmagic
          exact .inl ⟨body, bytes, by rw [← heq], hlt⟩
        · exact .inr ⟨_, hopen.trans (if_neg hchecksum), rfl⟩
    · refine .inr ⟨.badMagic, ?_, rfl⟩
      rw [Segment.open, htrailer, if_neg hmagic]
      rfl

/-- Only the magic bytes at the end are needed to tell most files apart. -/
theorem Sealed.magic_suffix (h : Sealed file body bytes) : Footer.magic <:+ file.toList := by
  refine ⟨body.toList ++ (bytes ++ (Bytes.little 4 bytes.length
    ++ Bytes.little 4 (crc32c bytes).toNat)), ?_⟩
  rw [h.toList_eq, Footer.trailer]
  simp only [List.append_assoc]

/-- Behind a right trailer a file is refused as corrupt unless its footer can be read, or is of
another version. -/
theorem Sealed.isCorruption_iff (h : Sealed file body bytes) :
    (∃ e, Segment.open (.memory file) = .error e ∧ e.isCorruption = true) ↔
      ¬ ((∃ f, Footer.parse bytes = .ok f ∧ f.KeysWithin body.size) ∨
        ∃ version ∈ bytes.head?, version ≠ Footer.supportedVersion) := by
  constructor
  · rintro ⟨e, hopen, hcorrupt⟩ (⟨f, hparse, hkeys⟩ | ⟨version, hhead, hversion⟩)
    · rw [h.open_eq_ok hparse hkeys] at hopen
      cases hopen
    · obtain ⟨rest, rfl⟩ := List.head?_eq_some_iff.mp hhead
      rw [h.open_eq, Footer.parse_eq_error hversion] at hopen
      cases hopen
      cases hcorrupt
  · intro hnone
    obtain ⟨hread, hversion⟩ := not_or.mp hnone
    cases hparse : Footer.parse bytes with
    | error e =>
        refine ⟨e, ?_, Footer.isCorruption_of_parse_eq_error hparse fun version hhead => ?_⟩
        · rw [h.open_eq, hparse]
          rfl
        · by_contra hne
          exact hversion ⟨version, hhead, hne⟩
    | ok f =>
        obtain ⟨p, hp, hwithin⟩ : ∃ p, f.shortKeys = some p ∧ ¬ p.within body.size = true := by
          by_contra hall
          refine hread ⟨f, hparse, fun p hp => ?_⟩
          by_contra hwithin
          exact hall ⟨p, hp, hwithin⟩
        refine ⟨.corruption (.shortKeyOverlap p.offset.toNat p.clampedStop body.size), ?_, rfl⟩
        rw [h.open_eq]
        apply bind_of_eq_ok hparse
        simp only [hp]
        rw [if_pos hwithin]
        rfl

/-- A file is refused as corrupt exactly if its end does not pass for a footer. -/
theorem isCorruption_iff (file : Array UInt8) :
    (∃ e, Segment.open (.memory file) = .error e ∧ e.isCorruption = true) ↔
      ¬ EndsInFooter file := by
  constructor
  · rintro hcorrupt ⟨body, bytes, hsealed, hfooter⟩
    exact hsealed.isCorruption_iff.mp hcorrupt hfooter
  · intro hends
    rcases sealed_or_isCorruption file with ⟨body, bytes, hsealed⟩ | hcorrupt
    · exact hsealed.isCorruption_iff.mpr fun hfooter => hends ⟨body, bytes, hsealed, hfooter⟩
    · exact hcorrupt

end Segment

/-- A segment opens after it was written. Cut short anywhere, it is refused as corrupt exactly if
what is left does not end in what passes for a footer; so it always is if the magic bytes come up
nowhere else in the file. -/
theorem truncated_isCorruption_iff [Lz4.Compressor] {id : UInt32} {schema : Schema}
    {options : SegmentOptions} {rows : List Row} {file : Array UInt8}
    (h : SegmentWriter.Writes id schema options #[] rows file) (hsize : file.size < 2 ^ 64) :
    (∃ segment, Segment.open (.memory file) = .ok segment ∧ segment.numRows = rows.length) ∧
      (∀ n < file.size,
        (∃ e, Segment.open (.memory (file.extract 0 n)) = .error e ∧ e.isCorruption = true) ↔
          ¬ Segment.EndsInFooter (file.extract 0 n)) ∧
      (¬ Footer.magic <:+: file.toList.dropLast → ∀ n < file.size,
        ∃ e, Segment.open (.memory (file.extract 0 n)) = .error e ∧ e.isCorruption = true) := by
  obtain ⟨plan, body, footer, rfl, rfl, rfl, hsealed, hlies⟩ := h.lies hsize
  refine ⟨⟨_, hlies.open_eq_ok hsealed, hlies.numRows_eq⟩, fun n _ => Segment.isCorruption_iff _,
    fun hmagic n hn => ?_⟩
  apply (Segment.isCorruption_iff _).mpr
  rintro ⟨body', bytes, hfooter, -⟩
  refine hmagic (hfooter.magic_suffix.isInfix.trans ?_)
  have hcut : (file.extract 0 n).toList = file.toList.dropLast.take n := by
    have hmin : min n (file.size - 1) = n := by omega
    rw [Array.toList_extract, List.extract_eq_take_drop, List.drop_zero, Nat.sub_zero,
      List.dropLast_eq_take, List.take_take, Array.length_toList, hmin]
  rw [hcut]
  exact (List.take_prefix _ _).isInfix

attribute [local instance] Lz4.matcher

/-- Two rows of numbers and a null are refused wherever they are cut short. -/
theorem truncated_numbers :
    let schema : Schema := {
      columns := [{ uniqueId := 1, name := "k", type := .int, isKey := true },
        { uniqueId := 2, name := "n", type := .largeint }]
      shortKeys := 1
      nonempty := by decide
      distinct := by decide
      keysFirst := by decide
      shortKeys_le := by decide }
    let options : SegmentOptions := { compression := .none }
    let rows : List Row := [[some (.int32 (-5)), some (.int128 1)], [some (.int32 5), none]]
    ∃ file, SegmentWriter.Writes 3 schema options #[] rows file ∧ file.size < 2 ^ 64 ∧
      ¬ Footer.magic <:+: file.toList.dropLast ∧ ∀ n < file.size,
        ∃ e, Segment.open (.memory (file.extract 0 n)) = .error e ∧ e.isCorruption = true := by
  intro schema options rows
  have hrun : (SegmentWriter.written? 3 schema options #[] rows).any (fun file =>
      file.size < 2 ^ 64 ∧ ¬ Footer.magic <:+: file.toList.dropLast) = true := by
    decide +kernel
  obtain ⟨file, hwrites, hsize, hmagic⟩ := SegmentWriter.exists_writes hrun
  exact ⟨file, hwrites, hsize, hmagic, (truncated_isCorruption_iff hwrites hsize).2.2 hmagic⟩

/-- A number that spells a footer without columns and its trailer. What comes before the end of its
page opens as a segment. -/
theorem truncated_opens :
    let schema : Schema := {
      columns := [{ uniqueId := 1, name := "n", type := .largeint }]
      shortKeys := 0
      nonempty := by decide
      distinct := by decide
      keysFirst := by decide
      shortKeys_le := by decide }
    let options : SegmentOptions := { compression := .none }
    ∃ file, SegmentWriter.Writes 0 schema options #[]
        [[some (.int128 65558919125192194704423808162181677057)]] file ∧
      18 < file.size ∧ ∃ segment, Segment.open (.memory (file.extract 0 18)) = .ok segment := by
  intro schema options
  have hrun : (SegmentWriter.written? 0 schema options #[]
      [[some (.int128 65558919125192194704423808162181677057)]]).any (fun file =>
        18 < file.size ∧ (Segment.open (.memory (file.extract 0 18))).isOk) = true := by
    decide +kernel
  obtain ⟨file, hwrites, hsize, hopen⟩ := SegmentWriter.exists_writes hrun
  refine ⟨file, hwrites, hsize, ?_⟩
  cases hsegment : Segment.open (.memory (file.extract 0 18)) with
  | ok segment => exact ⟨segment, rfl⟩
  | error e =>
      rw [hsegment] at hopen
      cases hopen

end Columnar
