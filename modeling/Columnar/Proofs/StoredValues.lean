import Columnar.Field
import Columnar.Proofs.Reads

/-! # Stored values and images

A value of a field comes back from its stored form, and an integer-like one from its image. -/

namespace Columnar

open Decoder (Reads)

namespace Field

/-- A value belongs to a field. -/
def Admits (f : Field) (v : Value) : Prop := f.check v = .ok ()

theorem admits_iff {f : Field} {v : Value} :
    f.Admits v ↔ v.kind = f.type.kind ∧ ∀ bs, v = .bytes bs → f.fits bs.length = true := by
  unfold Admits check
  by_cases hk : v.kind = f.type.kind
  · cases v <;> simp [hk, fits, or_iff_not_imp_left]
  · simp [hk]

theorem Admits.kind_eq {f : Field} {v : Value} (h : f.Admits v) : v.kind = f.type.kind :=
  (admits_iff.mp h).1

/-- What a page can be told to hold in this encoding: values of the type of the field, and strings
out of a dictionary that fit the declared length. -/
structure Holds (f : Field) (e : Encoding) (v : Value) : Prop where
  kind_eq : v.kind = f.type.kind
  fits : e = .dictionary → ∀ bs, v = .bytes bs → f.fits bs.length = true

theorem Admits.holds {f : Field} {v : Value} (h : f.Admits v) (e : Encoding) : f.Holds e v where
  kind_eq := h.kind_eq
  fits _ := (admits_iff.mp h).2

/-! ## Stored form -/

theorem reads_wordOf {w k : ℕ} (hw : 2 ^ w = 256 ^ k) (n : BitVec w) (what : String) :
    Reads (wordOf w k what) (Bytes.little k n.toNat) n :=
  (Decoder.reads_word (hw ▸ n.isLt) what).bind_pure (by simp)

theorem reads_encode {f : Field} {v : Value} (hk : v.kind = f.type.kind)
    (hlen : ∀ bs, v = .bytes bs → bs.length < 2 ^ 64) : Reads f.decode v.encode v := by
  obtain ⟨type, length⟩ := f
  have hbytes : ∀ bs : Bytes, v = .bytes bs →
      Reads (do let n ← Varint.decode; return .bytes (← Decoder.take n type.name))
        (Varint.encode bs.length ++ bs) (Value.bytes bs) := fun bs hbs =>
    (Varint.reads_encode (hlen bs hbs)).bind ((Decoder.reads_take bs _).bind_pure rfl)
  have hword : ∀ {w k : ℕ} (n : BitVec w) (make : BitVec w → Value), 2 ^ w = 256 ^ k →
      Reads (do return make (← wordOf w k type.name)) (Bytes.little k n.toNat) (make n) :=
    fun n make hw => (reads_wordOf hw n _).bind_pure rfl
  cases v <;> cases type <;> try cases hk
  case bool.bool b =>
      cases b <;> exact (Decoder.reads_byte _ _).bind_pure rfl
  case int8.tinyint n => exact hword n .int8 (by norm_num)
  case int16.smallint n => exact hword n .int16 (by norm_num)
  case int32.int n => exact hword n .int32 (by norm_num)
  case int64.bigint n => exact hword n .int64 (by norm_num)
  case int128.largeint n => exact hword n .int128 (by norm_num)
  case float32.float n => exact hword n .float32 (by norm_num)
  case float64.double n => exact hword n .float64 (by norm_num)
  case date.date n => exact hword n .date (by norm_num)
  case datetime.datetime n => exact hword n .datetime (by norm_num)
  case decimal.decimal d =>
      exact (reads_wordOf (by norm_num) d.integer _).bind
        ((reads_wordOf (by norm_num) d.fraction _).bind_pure rfl)
  case bytes.char bs => exact hbytes bs rfl
  case bytes.varchar bs => exact hbytes bs rfl

end Field

/-! ## Images -/

namespace Value

/-- A number of fewer bits is the low part of its image, which tells that it is one. -/
theorem isSigned_signExtend {w : ℕ} (hpos : 0 < w) (hle : w ≤ 64) (n : BitVec w) :
    isSigned w (n.signExtend 64) = true ∧ (n.signExtend 64).setWidth w = n := by
  constructor
  · have hn := n.isLt
    have hw : 2 ^ w = 2 * 2 ^ (w - 1) := by rw [← pow_succ']; congr 1; omega
    have h64 : 2 ^ w ≤ 2 ^ 64 := Nat.pow_le_pow_right (by omega) hle
    have hmsb := n.msb_eq_decide
    simp only [isSigned, Bool.or_eq_true, decide_eq_true_eq, BitVec.toNat_signExtend,
      BitVec.toNat_setWidth]
    rw [Nat.mod_eq_of_lt (by omega)]
    split
    next h => simp [h] at hmsb; omega
    next h => simp [h] at hmsb; omega
  · apply BitVec.eq_of_getLsbD_eq
    intro i hi
    rw [BitVec.getLsbD_setWidth, BitVec.getLsbD_signExtend]
    simp [hi]
    omega

theorem ofImage?_image {t : FieldType} {v : Value} (ht : t.isIntegerLike = true)
    (hk : v.kind = t.kind) : ∃ image, v.image? = some image ∧ ofImage? t image = some v := by
  cases v <;> cases t <;> try first | exact absurd ht (by decide) | cases hk
  case bool.bool b => cases b <;> exact ⟨_, rfl, rfl⟩
  case int8.tinyint n =>
      obtain ⟨hs, hw⟩ := isSigned_signExtend (by omega) (by omega) n
      exact ⟨_, rfl, by simp [ofImage?, hs, hw]⟩
  case int16.smallint n =>
      obtain ⟨hs, hw⟩ := isSigned_signExtend (by omega) (by omega) n
      exact ⟨_, rfl, by simp [ofImage?, hs, hw]⟩
  case int32.int n =>
      obtain ⟨hs, hw⟩ := isSigned_signExtend (by omega) (by omega) n
      exact ⟨_, rfl, by simp [ofImage?, hs, hw]⟩
  case int64.bigint n => exact ⟨_, rfl, rfl⟩
  case date.date days =>
      refine ⟨_, rfl, ?_⟩
      have hdays := days.isLt
      have hfit : (days.setWidth 64).toNat < 2 ^ 32 := by
        rw [BitVec.toNat_setWidth]
        omega
      have hback : (days.setWidth 64).setWidth 32 = days := by
        apply BitVec.eq_of_toNat_eq
        simp only [BitVec.toNat_setWidth]
        omega
      simp only [ofImage?, hfit, if_true, hback]
  case datetime.datetime packed => exact ⟨_, rfl, rfl⟩

end Value

end Columnar
