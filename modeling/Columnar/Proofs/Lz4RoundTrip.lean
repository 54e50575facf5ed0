import Columnar.Page.Compression
import Columnar.Proofs.Reads

/-! # Compressed bytes expand to what they were

No block expands further than its length allows, so that the size in front of a block passes its
check whatever compressor made the block. -/

namespace Columnar.Lz4

/-! ## Steps -/

theorem lengthFrom_replicate (k : ℕ) {r : UInt8} (hr : r ≠ 255) (rest : Bytes) :
    ∀ n, ∃ h, lengthFrom n (List.replicate k 255 ++ r :: rest) =
      some (n + 255 * k + r.toNat, ⟨rest, h⟩) := by
  induction k with
  | zero =>
      intro n
      exact ⟨by simp, by simp [lengthFrom, hr]⟩
  | succ k ih =>
      intro n
      obtain ⟨h, hk⟩ := ih (n + 255)
      refine ⟨by simp; omega, ?_⟩
      simp only [List.replicate_succ, List.cons_append, lengthFrom, if_true, hk, Option.map_some]
      congr 2
      ring

theorem size_appendList (out : Array UInt8) (bs : Bytes) :
    (out ++ bs).size = out.size + bs.length := by
  rw [← Array.length_toList, Array.toList_appendList, List.length_append, Array.length_toList]

theorem size_appendList_take (out : Array UInt8) {bs : Bytes} {n : ℕ} (hn : n ≤ bs.length) :
    (out ++ bs.take n).size = out.size + n := by
  rw [size_appendList, List.length_take_of_le hn]

theorem size_copyBack (offset n : ℕ) : ∀ out, (copyBack offset n out).size = out.size + n := by
  induction n with
  | zero => exact fun _ => rfl
  | succ n ih =>
      intro out
      rw [copyBack, ih, Array.size_push]
      omega

/-- A token with nothing but literals behind it ends the block. -/
theorem expandOnto_literals {capacity : ℕ} {t : UInt8} {bs literals : Bytes} {out : Array UInt8}
    {hle : literals.length ≤ bs.length}
    (hlen : length? (t.toNat / 16) bs = some (literals.length, ⟨literals, hle⟩))
    (hroom : out.size + literals.length ≤ capacity) :
    expandOnto capacity (t :: bs) out = .ok (out ++ literals) := by
  have hroom' : ¬ capacity < out.size + literals.length := by omega
  rw [expandOnto]
  simp only [hlen, Bytes.hasAtLeast_iff, Nat.le_refl, not_true, if_false, hroom',
    List.take_length]
  split
  next => rfl
  next hdrop => simp at hdrop
  next hdrop => simp at hdrop

/-- If literals are followed by a match that starts in the output, the block goes on behind it. -/
theorem expandOnto_match {capacity offset extra : ℕ} {t low high : UInt8}
    {bs literals bs' rest : Bytes} {out : Array UInt8}
    {hle : (literals ++ low :: high :: bs').length ≤ bs.length} {hle' : rest.length ≤ bs'.length}
    (hlen : length? (t.toNat / 16) bs =
      some (literals.length, ⟨literals ++ low :: high :: bs', hle⟩))
    (hlen' : length? (t.toNat % 16) bs' = some (extra, ⟨rest, hle'⟩))
    (hoffset : low.toNat + 256 * high.toNat = offset) (hpos : 0 < offset)
    (hback : offset ≤ out.size + literals.length)
    (hroom : out.size + literals.length + (extra + 4) ≤ capacity) :
    expandOnto capacity (t :: bs) out =
      expandOnto capacity rest (copyBack offset (extra + 4) (out ++ literals)) := by
  subst hoffset
  have hsize : (out ++ literals).size = out.size + literals.length := size_appendList _ _
  have hfirst : ¬ capacity < out.size + literals.length := by omega
  have hsecond : ¬ capacity < (out ++ literals).size + (extra + 4) := by omega
  have hstart : ¬ (out ++ literals).size < low.toNat + 256 * high.toNat := by omega
  rw [expandOnto]
  simp only [hlen, Bytes.hasAtLeast_iff, List.length_append, Nat.le_add_right, not_true, if_false,
    hfirst, List.take_left]
  split
  next hdrop => simp at hdrop
  next hdrop => simp at hdrop
  next low' high' bs'' hdrop =>
    rw [List.drop_left] at hdrop
    simp only [List.cons.injEq] at hdrop
    obtain ⟨rfl, rfl, rfl⟩ := hdrop
    rw [if_neg (Nat.ne_of_gt hpos)]
    simp only [hlen', hsecond, hstart, if_false]

/-! ## How far a block expands -/

theorem lengthFrom_le (bs : Bytes) :
    ∀ {n m : ℕ} {rest : { rest : Bytes // rest.length < bs.length }},
      lengthFrom n bs = some (m, rest) → m + 255 * rest.1.length < n + 255 * bs.length := by
  induction bs with
  | nil =>
      intro n m rest h
      simp [lengthFrom] at h
  | cons b bs ih =>
      intro n m rest h
      rw [lengthFrom] at h
      split at h
      next =>
          obtain ⟨⟨m', rest'⟩, hfrom, heq⟩ := Option.map_eq_some_iff.mp h
          cases heq
          have hle := ih hfrom
          simp only [List.length_cons]
          omega
      next hb =>
          cases h
          have hlt : b.toNat < 255 := by
            have h256 := b.toNat_lt
            have hne : b.toNat ≠ 255 := fun h255 => hb (UInt8.toNat_inj.mp h255)
            omega
          simp only [List.length_cons]
          omega

theorem length?_le {nibble n : ℕ} {bs : Bytes} {rest : { rest : Bytes // rest.length ≤ bs.length }}
    (hnibble : nibble < 16) (h : length? nibble bs = some (n, rest)) :
    n + 255 * rest.1.length ≤ 14 + 255 * bs.length := by
  rw [length?] at h
  split at h
  next =>
      obtain ⟨⟨m, rest'⟩, hfrom, heq⟩ := Option.map_eq_some_iff.mp h
      cases heq
      have hle := lengthFrom_le bs hfrom
      simp only
      omega
  next =>
      cases h
      simp only
      omega

/-- No block expands by a larger factor than 255, nor beyond the capacity. -/
theorem size_expandOnto_le (capacity : ℕ) (block : Bytes) (out : Array UInt8) :
    ∀ {full}, expandOnto capacity block out = .ok full →
      full.size ≤ out.size + 255 * block.length ∧ full.size ≤ capacity := by
  fun_induction expandOnto capacity block out <;> intro full h <;> try cases h
  case case5.refl out token bs n bs' hfewer _ hthere hroom out' hdrop =>
      have hn : n ≤ bs'.length := by simpa using hthere
      have hsize : out'.size = out.size + n := size_appendList_take out hn
      simp only [List.length_cons]
      omega
  case case11 out token bs n bs' hfewer _ hthere _ out' low high bs'' hdrop _ _ extra rest _ hlen
      m _ _ ih =>
      obtain ⟨hle, hcapacity⟩ := ih h
      have hn : n ≤ bs'.length := by simpa using hthere
      have hsize : out'.size = out.size + n := size_appendList_take out hn
      have hbehind := congrArg List.length hdrop
      simp only [List.length_drop, List.length_cons] at hbehind
      have hextra := length?_le (Nat.mod_lt _ (by omega)) hlen
      simp only at hextra
      rw [size_copyBack] at hle
      refine ⟨?_, hcapacity⟩
      simp only [List.length_cons]
      omega

theorem length_expand_le {capacity : ℕ} {block data : Bytes}
    (h : expand capacity block = .ok data) :
    data.length ≤ 255 * block.length ∧ data.length ≤ capacity := by
  unfold expand at h
  cases hout : expandOnto capacity block #[] with
  | error e =>
      rw [hout] at h
      cases h
  | ok full =>
      rw [hout] at h
      cases h
      simpa using size_expandOnto_le capacity block #[] hout

end Columnar.Lz4

namespace Columnar.Compression

/-- Bytes come back from their compressed form, as long as their number fits its four bytes. -/
theorem decompress_compress [Lz4.Compressor] [Lz4.LawfulCompressor] (c : Compression) {data : Bytes}
    (hfit : c = lz4 → data.length < 2 ^ 32) : c.decompress (c.compress data) = .ok data := by
  cases c with
  | none => rfl
  | lz4 =>
      have hexpand := Lz4.LawfulCompressor.expand_compress (hfit rfl)
      obtain ⟨hratio, -⟩ := Lz4.length_expand_le hexpand
      have hsize := Decoder.reads_word (k := 4) (hfit rfl) "lz4 size prefix"
        (Lz4.Compressor.compress data)
      have hroom : ¬ (Lz4.Compressor.compress data).length * maxRatio + 16 < data.length := by
        rw [maxRatio]
        omega
      simp only [decompress, compress, hsize, hroom, if_false, hexpand]
      rfl

end Columnar.Compression
