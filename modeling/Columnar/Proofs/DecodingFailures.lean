import Columnar.Proofs.ColumnCells
import Columnar.Segment.Footer

/-! # How decoding fails

A reader of stored bytes fails in one way only: it puts the bytes in doubt. What alone is refused
without doubt is a footer of another version. -/

namespace Columnar

namespace Decoder

variable {α β : Type} {p : Decoder α}

/-- Failures of the reader put the bytes in doubt. -/
def Doubts (p : Decoder α) : Prop :=
  ∀ bs e rest, p bs = .error e rest → e.isCorruption = true

namespace Doubts

theorem pure (a : α) : Doubts (Pure.pure a : Decoder α) := by
  intro bs e rest h
  cases h

theorem fail (cause : Corruption) : Doubts (Decoder.fail cause : Decoder α) := by
  intro bs e rest h
  cases h
  rfl

theorem bind {f : α → Decoder β} (hp : Doubts p) (hf : ∀ a, Doubts (f a)) : Doubts (p >>= f) := by
  intro bs e rest h
  change EStateM.bind p f bs = _ at h
  rw [EStateM.bind] at h
  cases hbs : p bs with
  | ok a rest₁ =>
      rw [hbs] at h
      exact hf a rest₁ e rest h
  | error e₁ rest₁ =>
      rw [hbs] at h
      cases h
      exact hp bs _ _ hbs

theorem map (f : α → β) (hp : Doubts p) : Doubts (f <$> p) := by
  intro bs e rest h
  change EStateM.map f p bs = _ at h
  rw [EStateM.map] at h
  cases hbs : p bs with
  | ok a rest₁ => rw [hbs] at h; cases h
  | error e₁ rest₁ =>
      rw [hbs] at h
      cases h
      exact hp bs _ _ hbs

theorem ite {c : Prop} [Decidable c] {q : Decoder α} (hp : Doubts p) (hq : Doubts q) :
    Doubts (if c then p else q) := by
  split
  next => exact hp
  next => exact hq

/-- A check, and the steps behind it. -/
theorem check {c : Prop} [Decidable c] {cause : Corruption} {q : Decoder α} (hq : Doubts q) :
    Doubts (if c then Decoder.fail cause >>= fun _ : PUnit => q else q) :=
  .ite ((Doubts.fail cause).bind fun _ => hq) hq

theorem require {c : Prop} [Decidable c] {cause : Corruption} {q : Decoder α} (hq : Doubts q) :
    Doubts (if c then q else Decoder.fail cause >>= fun _ : PUnit => q) :=
  .ite hq ((Doubts.fail cause).bind fun _ => hq)

end Doubts

/-! ## Parts of all formats -/

theorem doubts_take (n : ℕ) (what : String) : Doubts (take n what) := by
  intro bs e rest h
  unfold take at h
  split at h
  next => cases h
  next =>
    cases h
    rfl

theorem doubts_byte (what : String) : Doubts (byte what) := by
  intro bs e rest h
  cases bs with
  | nil =>
      cases h
      rfl
  | cons b bs => cases h

theorem doubts_word (k : ℕ) (what : String) : Doubts (word k what) :=
  (doubts_take k what).bind fun _ => .pure _

theorem doubts_flag (what : String) : Doubts (flag what) :=
  (doubts_byte what).bind fun _ => .ite (.pure _) (.ite (.pure _) (.fail _))

theorem doubts_named (what : String) (ofId? : UInt8 → Option α) (unknown : UInt8 → Corruption) :
    Doubts (named what ofId? unknown) := by
  refine (doubts_byte what).bind fun b => ?_
  cases ofId? b with
  | some a => exact .pure a
  | none => exact .fail _

theorem doubts_remaining : Doubts remaining := by
  intro bs e rest h
  cases h

theorem doubts_times (hp : Doubts p) (n : ℕ) : Doubts (times n p) := by
  induction n with
  | zero => exact .pure []
  | succ n ih =>
      rw [times_succ]
      exact hp.bind fun a => ih.bind fun as => .pure (a :: as)

end Decoder

open Decoder (Doubts)

theorem Varint.doubts_decode : Doubts Varint.decode := by
  intro bs e rest h
  unfold Varint.decode at h
  split at h
  next => cases h
  next =>
    cases h
    rfl

theorem Varint.doubts_decode32 : Doubts Varint.decode32 :=
  doubts_decode.bind fun _ => .ite (.pure _) (.fail _)

theorem Pointer.doubts_decode : Doubts Pointer.decode :=
  Varint.doubts_decode.bind fun _ => Varint.doubts_decode32.bind fun _ => .pure _

theorem Pointer.doubts_decodeOptional (what : String) : Doubts (Pointer.decodeOptional what) :=
  (Decoder.doubts_flag what).bind fun _ =>
    .ite (Pointer.doubts_decode.bind fun _ => .pure _) (.pure _)

/-! ## Values and zone maps -/

theorem Field.doubts_wordOf (w k : ℕ) (what : String) : Doubts (Field.wordOf w k what) :=
  (Decoder.doubts_word k what).bind fun _ => .pure _

theorem Field.doubts_decode (f : Field) : Doubts f.decode := by
  unfold Field.decode
  cases f.type with
  | bool =>
      exact (Decoder.doubts_byte _).bind fun _ => .ite (.pure _) (.ite (.pure _) (.fail _))
  | decimal =>
      exact (doubts_wordOf _ _ _).bind fun _ => (doubts_wordOf _ _ _).bind fun _ => .pure _
  | char | varchar =>
      exact Varint.doubts_decode.bind fun _ => (Decoder.doubts_take _ _).bind fun _ => .pure _
  | _ => exact (doubts_wordOf _ _ _).bind fun _ => .pure _

theorem ZoneMap.doubts_decode (f : Field) : Doubts (ZoneMap.decode f) := by
  refine (Decoder.doubts_byte _).bind fun flags => ?_
  refine .check (.ite ?_ (.pure _))
  refine f.doubts_decode.bind fun least => f.doubts_decode.bind fun greatest => ?_
  exact .check (.pure _)

theorem ZoneMap.doubts_decodeRecord (f : Field) : Doubts (ZoneMap.decodeRecord f) := by
  refine Varint.doubts_decode.bind fun length => (Decoder.doubts_take _ _).bind fun record => ?_
  cases hrecord : ZoneMap.decode f record with
  | ok z rest =>
      cases rest with
      | nil => exact .pure z
      | cons b rest => exact .fail _
  | error e rest =>
      intro bs e' rest' h
      cases h
      exact doubts_decode f record e rest hrecord

/-! ## Footers -/

theorem ColumnMeta.doubts_decode : Doubts ColumnMeta.decode := by
  refine Varint.doubts_decode32.bind fun id => Varint.doubts_decode32.bind fun uniqueId => ?_
  refine (Decoder.doubts_named _ _ _).bind fun type => Varint.doubts_decode32.bind fun length => ?_
  refine (Decoder.doubts_flag _).bind fun isNullable => ?_
  refine (Decoder.doubts_named _ _ _).bind fun encoding => ?_
  refine (Decoder.doubts_named _ _ _).bind fun compression => ?_
  refine .require (Varint.doubts_decode.bind fun numRows =>
    Varint.doubts_decode.bind fun numPages => ?_)
  refine Decoder.doubts_remaining.bind fun left => .check ?_
  refine (Decoder.doubts_times Pointer.doubts_decode _).bind fun pages => ?_
  refine (Pointer.doubts_decodeOptional _).bind fun ordinalIndex => ?_
  refine (Pointer.doubts_decodeOptional _).bind fun zoneMaps => ?_
  refine (Decoder.doubts_flag _).bind fun found => .ite ?_ ?_
  · exact ((ZoneMap.doubts_decodeRecord _).map some).bind fun _ => .pure _
  · exact (Doubts.pure none).bind fun _ => .pure _

namespace Footer

theorem doubts_decodeColumns (count : ℕ) : ∀ position, Doubts (decodeColumns count position) := by
  induction count with
  | zero => exact fun position => .pure []
  | succ count ih =>
      intro position
      refine ColumnMeta.doubts_decode.bind fun c => .check ?_
      exact (ih _).bind fun cs => .pure _

/-- A footer of another version is refused at its first byte. -/
theorem parse_eq_error {version : UInt8} (h : version ≠ supportedVersion) (rest : Bytes) :
    parse (version :: rest) =
      .error (.unsupported (.footerVersion version supportedVersion)) := by
  have hdecode : decode (version :: rest) =
      .error (.unsupported (.footerVersion version supportedVersion)) rest := by
    apply ((Decoder.reads_byte version "footer version").bind_append rest).trans
    rw [if_pos h]
    rfl
  rw [parse, hdecode]

/-- Other failures put the bytes in doubt. -/
theorem isCorruption_of_parse_eq_error {bytes : Bytes} {e : Error} (h : parse bytes = .error e)
    (hversion : ∀ version ∈ bytes.head?, version = supportedVersion) : e.isCorruption = true := by
  have hdecode : ∃ rest, decode bytes = .error e rest := by
    unfold parse at h
    split at h
    next => cases h
    next e' rest heq =>
      cases h
      exact ⟨rest, heq⟩
  obtain ⟨left, hdecode⟩ := hdecode
  cases bytes with
  | nil =>
      cases hdecode
      rfl
  | cons version rest =>
      have hbyte := Decoder.reads_byte version "footer version"
      rw [show decode (version :: rest) = _ from hbyte.bind_append rest,
        if_neg (not_not.mpr (hversion version rfl))] at hdecode
      refine (?_ : Doubts _) _ _ _ hdecode
      refine Varint.doubts_decode.bind fun numRows => Varint.doubts_decode.bind fun numColumns => ?_
      refine Decoder.doubts_remaining.bind fun left => .check ?_
      refine (doubts_decodeColumns _ _).bind fun columns => ?_
      refine (Pointer.doubts_decodeOptional _).bind fun shortKeys => ?_
      exact Decoder.doubts_remaining.bind fun left => .check (.pure _)

end Footer

end Columnar
