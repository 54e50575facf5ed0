import Columnar.File
import Columnar.Proofs.Lz4RoundTrip

/-! # Sections of a file

What was appended to a file in memory can be read where its pointer says, however much comes behind
it. -/

namespace Columnar

theorem appendList_append {α : Type} (xs : Array α) (ys zs : List α) :
    xs ++ ys ++ zs = xs ++ (ys ++ zs) := by
  apply Array.ext'
  simp only [Array.toList_appendList, List.append_assoc]

/-- The file holds these bytes where the pointer says. -/
structure Stored (file : Array UInt8) (p : Pointer) (bs : Bytes) : Prop where
  size_eq : p.size.toNat = bs.length
  within : p.offset.toNat + bs.length ≤ file.size
  content : (file.toList.drop p.offset.toNat).take bs.length = bs

namespace Stored

theorem append {file : Array UInt8} {p : Pointer} {bs : Bytes} (h : Stored file p bs)
    (more : Bytes) : Stored (file ++ more) p bs where
  size_eq := h.size_eq
  within := by
    have hle := h.within
    rw [Lz4.size_appendList]
    omega
  content := by
    have hle := h.within
    have hcontent := h.content
    rw [Array.toList_appendList, List.drop_append_of_le_length (by simp; omega),
      List.take_append_of_le_length (by simp; omega)]
    exact hcontent

theorem read {file : Array UInt8} {p : Pointer} {bs : Bytes} (h : Stored file p bs) :
    (File.memory file).read p = .ok bs := by
  have hle := h.within
  have hcontent := h.content
  rw [File.read, File.readAt_memory, h.size_eq, if_pos hle, Array.toList_extract,
    List.extract_eq_take_drop, Nat.add_sub_cancel_left, hcontent]

theorem within_size {file : Array UInt8} {p : Pointer} {bs : Bytes} (h : Stored file p bs) :
    p.within file.size = true := by
  have hle := h.within
  simpa [Pointer.within, Pointer.stop, h.size_eq] using hle

theorem length_lt {file : Array UInt8} {p : Pointer} {bs : Bytes} (h : Stored file p bs) :
    bs.length < 2 ^ 32 :=
  h.size_eq ▸ p.size.toNat_lt

end Stored

theorem Pointer.new_eq_ok {offset length : ℕ} {p : Pointer}
    (h : Pointer.new offset length = .ok p) :
    length < 2 ^ 32 ∧ p = ⟨UInt64.ofNat offset, UInt32.ofNat length⟩ := by
  unfold Pointer.new at h
  split at h
  next hlt =>
    cases h
    exact ⟨hlt, rfl⟩
  next => cases h

theorem size_lt_of_append {file : Array UInt8} {bs : Bytes} {n : ℕ} (h : (file ++ bs).size < n) :
    file.size < n := by
  rw [Lz4.size_appendList] at h
  omega

/-- A pointer made at the end of a file finds what is appended there. -/
theorem stored_appended {file : Array UInt8} {p : Pointer} {bs : Bytes}
    (h : Pointer.new file.size bs.length = .ok p) (hfile : file.size < 2 ^ 64) :
    Stored (file ++ bs) p bs := by
  obtain ⟨hlen, rfl⟩ := Pointer.new_eq_ok h
  have hoffset : (UInt64.ofNat file.size).toNat = file.size := UInt64.toNat_ofNat_of_lt hfile
  refine ⟨UInt32.toNat_ofNat_of_lt hlen, ?_, ?_⟩
  · rw [hoffset, Lz4.size_appendList]
  · rw [hoffset, Array.toList_appendList, List.drop_left' (by simp)]
    simp

end Columnar
