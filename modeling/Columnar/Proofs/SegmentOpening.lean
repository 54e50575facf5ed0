import Columnar.Proofs.FooterRoundTrip
import Columnar.Proofs.ColumnReading
import Columnar.Segment

/-! # Opening a segment

A file is taken for a segment by its end alone: there have to be a footer and the trailer that was
made for it. -/

namespace Columnar

/-- What stands in the middle of a file can be read. -/
theorem File.readAt_append (xs : Array UInt8) (ys zs : Bytes) :
    (File.memory (xs ++ (ys ++ zs))).readAt xs.size ys.length = .ok ys := by
  rw [readAt_memory, if_pos (by simp only [Lz4.size_appendList, List.length_append]; omega),
    Array.toList_extract, List.extract_eq_take_drop, Nat.add_sub_cancel_left,
    Array.toList_appendList, List.drop_left' (by simp), List.take_left]

namespace Footer

@[simp] theorem length_trailer (bytes : Bytes) : (trailer bytes).length = trailerSize := by
  simp [trailer, magic, trailerSize]

/-! ## The parts of a trailer -/

theorem size_trailer {bytes : Bytes} (h : bytes.length < 2 ^ 32) :
    Bytes.toNat ((trailer bytes).take 4) = bytes.length := by
  rw [trailer, List.append_assoc, List.take_left' (by simp)]
  exact Bytes.toNat_little_of_lt h

theorem checksum_trailer (bytes : Bytes) :
    UInt32.ofNat (Bytes.toNat (((trailer bytes).drop 4).take 4)) = crc32c bytes := by
  rw [trailer, List.append_assoc, List.drop_left' (by simp), List.take_left' (by simp),
    Bytes.toNat_little_of_lt (crc32c bytes).toNat_lt, UInt32.ofNat_toNat]

theorem magic_trailer (bytes : Bytes) : (trailer bytes).drop 8 = magic := by
  rw [trailer, List.drop_left' (by simp)]

/-- The short-key index, if there is one, ends before `start`. -/
def KeysWithin (f : Footer) (start : ℕ) : Prop := ∀ p ∈ f.shortKeys, p.within start = true

end Footer

namespace Segment

/-! ## The end of a file -/

theorem readTrailer_append (body : Array UInt8) {trailer : Bytes}
    (hlength : trailer.length = Footer.trailerSize) :
    readTrailer (.memory (body ++ trailer)) =
      if trailer.drop 8 = Footer.magic then
        .ok (Bytes.toNat (trailer.take 4), UInt32.ofNat (Bytes.toNat ((trailer.drop 4).take 4)))
      else .error .badMagic := by
  have hsize : (File.memory (body ++ trailer)).size = body.size + Footer.trailerSize := by
    change (body ++ trailer).size = _
    rw [Lz4.size_appendList, hlength]
  have hread : (File.memory (body ++ trailer)).readAt body.size Footer.trailerSize =
      .ok trailer := by
    have happend := File.readAt_append body trailer []
    rwa [List.append_nil, hlength] at happend
  rw [readTrailer, hsize, if_neg (by omega), Nat.add_sub_cancel]
  apply (bind_of_eq_ok hread rfl).trans
  by_cases hmagic : trailer.drop 8 = Footer.magic
  · rw [if_neg (not_not.mpr hmagic), if_pos hmagic]
    rfl
  · rw [if_pos hmagic, if_neg hmagic]
    rfl

/-- What the trailer says to be the footer decides, if its checksum is right. -/
theorem open_append (body : Array UInt8) {bytes trailer : Bytes}
    (hlength : trailer.length = Footer.trailerSize)
    (hsize : Bytes.toNat (trailer.take 4) = bytes.length)
    (hmagic : trailer.drop 8 = Footer.magic) :
    let stored := UInt32.ofNat (Bytes.toNat ((trailer.drop 4).take 4))
    let file := File.memory (body ++ (bytes ++ trailer))
    Segment.open file =
      if stored = crc32c bytes then do
        let footer ← Footer.parse bytes
        if let some p := footer.shortKeys then
          if ¬ p.within body.size then
            throw (.corruption (.shortKeyOverlap p.offset.toNat p.clampedStop body.size))
        return { file, footer }
      else .error (.checksum stored (crc32c bytes)) := by
  intro stored file
  have hfile : readTrailer file = .ok (bytes.length, stored) := by
    have htrailer := readTrailer_append (body ++ bytes) hlength
    rwa [if_pos hmagic, hsize, appendList_append] at htrailer
  have hroom : file.size - Footer.trailerSize = body.size + bytes.length := by
    change (body ++ (bytes ++ trailer)).size - _ = _
    rw [Lz4.size_appendList, List.length_append, hlength]
    omega
  have hread : file.readAt body.size bytes.length = .ok bytes :=
    File.readAt_append body bytes trailer
  rw [Segment.open]
  apply bind_of_eq_ok hfile
  simp only [hroom, Nat.add_sub_cancel]
  rw [if_neg (by omega)]
  apply bind_of_eq_ok hread
  by_cases hchecksum : stored = crc32c bytes
  · rw [if_pos hchecksum]
    exact if_neg (not_not.mpr hchecksum)
  · rw [if_neg hchecksum]
    exact if_pos hchecksum

/-- Behind the body the file holds these bytes and the trailer of a footer that is stored so. -/
structure Sealed (file body : Array UInt8) (bytes : Bytes) : Prop where
  file_eq : file = body ++ (bytes ++ Footer.trailer bytes)
  bytes_lt : bytes.length < 2 ^ 32

namespace Sealed

variable {file body : Array UInt8} {bytes : Bytes}

theorem toList_eq (h : Sealed file body bytes) :
    file.toList = body.toList ++ bytes ++ Footer.trailer bytes := by
  rw [h.file_eq, Array.toList_appendList, List.append_assoc]

theorem size_eq (h : Sealed file body bytes) :
    file.size = body.size + bytes.length + Footer.trailerSize := by
  rw [← Array.length_toList, h.toList_eq, List.length_append, List.length_append,
    Footer.length_trailer, Array.length_toList]

/-- Behind the trailer the footer decides. -/
theorem open_eq (h : Sealed file body bytes) :
    Segment.open (.memory file) = (do
      let footer ← Footer.parse bytes
      if let some p := footer.shortKeys then
        if ¬ p.within body.size then
          throw (.corruption (.shortKeyOverlap p.offset.toNat p.clampedStop body.size))
      return { file := .memory file, footer }) := by
  rw [h.file_eq]
  exact (open_append body (Footer.length_trailer bytes) (Footer.size_trailer h.bytes_lt)
    (Footer.magic_trailer bytes)).trans (if_pos (Footer.checksum_trailer bytes))

/-- The trailer tells the length and the checksum of the footer. -/
theorem readTrailer_eq_ok (h : Sealed file body bytes) :
    readTrailer (.memory file) = .ok (bytes.length, crc32c bytes) := by
  rw [h.file_eq, ← appendList_append,
    readTrailer_append (body ++ bytes) (Footer.length_trailer bytes),
    if_pos (Footer.magic_trailer bytes), Footer.size_trailer h.bytes_lt,
    Footer.checksum_trailer bytes]

theorem open_eq_ok (h : Sealed file body bytes) {f : Footer} (hparse : Footer.parse bytes = .ok f)
    (hkeys : f.KeysWithin body.size) :
    Segment.open (.memory file) = .ok ⟨.memory file, f⟩ := by
  rw [h.open_eq]
  apply bind_of_eq_ok hparse
  cases hp : f.shortKeys with
  | none => rfl
  | some p =>
      simp only [hkeys p hp]
      rfl

end Sealed

end Segment

end Columnar
