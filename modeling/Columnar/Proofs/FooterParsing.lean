import Columnar.Proofs.Consumption
import Columnar.Proofs.FooterRoundTrip

/-! # Which footers are parsed

A footer that can be parsed from some bytes is well formed, and no longer in its stored form than
these. The well-formed footers are those that come back from their stored form. -/

namespace Columnar

open Decoder (Consumes)

namespace ZoneMap

theorem consumes_decode (f : Field) :
    Consumes (decode f) fun n z => z.Conforms f ∧ z.encode.length ≤ n := by
  apply (Decoder.consumes_byte _).bind
  rintro flags n rfl
  refine .check fun _ => .ite (fun _ => ?_) fun _ => .pure ⟨⟨?_, ?_⟩, le_rfl⟩
  · apply (Field.consumes_decode f).bind
    intro least n hleast
    apply (Field.consumes_decode f).bind
    intro greatest m hgreatest
    refine .check fun hle => .pure ⟨⟨?_, ?_⟩, ?_⟩
    · rintro _ _ ⟨⟩
      exact Ordering.isLE_iff_ne_gt.mpr hle
    · rintro _ _ ⟨⟩
      exact ⟨hleast.1, hgreatest.1⟩
    · simp only [encode, List.length_cons, List.length_append]
      omega
  · rintro _ _ ⟨⟩
  · rintro _ _ ⟨⟩

theorem consumes_decodeRecord (f : Field) :
    Consumes (decodeRecord f) fun n z => z.Conforms f ∧ z.encodeRecord.length ≤ n := by
  apply Varint.consumes_decode.bind
  intro length n hlength
  apply (Decoder.consumes_take length _).bind
  rintro record m ⟨rfl, hrecord⟩
  split
  next z hz =>
    obtain ⟨k, hk, hconforms, hle⟩ := consumes_decode f _ _ _ hz
    rw [List.length_nil, Nat.add_zero] at hk
    refine .pure ⟨hconforms, ?_⟩
    have hcount := hlength z.encode.length (by omega)
    rw [encodeRecord, List.length_append]
    omega
  next => exact .fail
  next => exact .fail

end ZoneMap

namespace ColumnMeta

/-- The zone map behind the byte that announces it. -/
theorem consumes_zoneMap (f : Field) :
    Consumes (some <$> ZoneMap.decodeRecord f) fun n found =>
      (∀ z, found = some z → z.Conforms f) ∧ (encodeZoneMap found).length ≤ n + 1 := by
  apply (ZoneMap.consumes_decodeRecord f).map
  rintro n z ⟨hconforms, hlen⟩
  refine ⟨?_, Nat.add_le_add_right hlen 1⟩
  rintro _ ⟨⟩
  exact hconforms

theorem consumes_decode : Consumes decode fun n m => m.WellFormed ∧ m.encode.length ≤ n := by
  -- Each part is no longer than what it was read from; the lengths are summed up in the end.
  refine Varint.consumes_decode32.bind fun id n₁ hid => ?_
  refine Varint.consumes_decode32.bind fun uniqueId n₂ hunique => ?_
  refine (Decoder.consumes_named _ _ _).bind fun type n₃ htype => ?_
  refine Varint.consumes_decode32.bind fun length n₄ hlength => ?_
  refine (Decoder.consumes_flag _).bind fun isNullable n₅ hnullable => ?_
  refine (Decoder.consumes_named _ _ _).bind fun encoding n₆ hencoding => ?_
  refine (Decoder.consumes_named _ _ _).bind fun compression n₇ hcompression => ?_
  refine .ite (fun hsupports => ?_) fun _ => .throw_bind
  refine Varint.consumes_decode.bind fun numRows n₈ hrows => ?_
  refine Varint.consumes_decode.bind fun numPages n₉ hpages => ?_
  refine Decoder.consumes_remaining.bind fun left n₁₀ hleft => .check fun _ => ?_
  refine (Decoder.consumes_times Pointer.consumes_decode _).bind fun pages n₁₁ hpointers => ?_
  refine (Pointer.consumes_decodeOptional _).bind fun ordinalIndex n₁₂ hindex => ?_
  refine (Pointer.consumes_decodeOptional _).bind fun zoneMaps n₁₃ hmaps => ?_
  have hwords := hrows _ (Varint.toNat_word_le numRows)
  have hcount := hpages pages.length hpointers.1.le
  refine (Decoder.consumes_flag _).bind fun found n₁₄ hfound => .ite (fun _ => ?_) fun _ => ?_
  · apply (consumes_zoneMap ⟨type, length⟩).bind_pure
    rintro n₁₅ segmentZoneMap ⟨hconforms, hzone⟩
    refine ⟨⟨hsupports, hconforms⟩, ?_⟩
    simp only [encode, List.length_append, List.length_cons, List.size_toArray]
    omega
  · refine .pure ⟨⟨hsupports, fun z hz => by cases hz⟩, ?_⟩
    simp only [encode, encodeZoneMap, List.length_append, List.length_cons, List.size_toArray,
      List.length_nil]
    omega

end ColumnMeta

namespace Footer

/-- A footer of the version that is written, whose columns stand where they say and are well
formed. -/
structure WellFormed (f : Footer) : Prop where
  version : f.version = 1
  ids : ∀ (i : ℕ) (m : ColumnMeta), f.columns[i]? = some m → m.id.toNat = i
  columns : ∀ m ∈ f.columns, m.WellFormed

theorem consumes_decodeColumns (count position : ℕ) :
    Consumes (decodeColumns count position) fun n ms => ms.length = count ∧
      (∀ (i : ℕ) (m : ColumnMeta), ms[i]? = some m → m.id.toNat = position + i) ∧
        (∀ m ∈ ms, m.WellFormed) ∧ (ms.flatMap ColumnMeta.encode).length ≤ n := by
  induction count generalizing position with
  | zero => exact .pure ⟨rfl, by simp, by simp, le_rfl⟩
  | succ count ih =>
      apply ColumnMeta.consumes_decode.bind
      rintro m n ⟨hm, hlen⟩
      refine .check fun hid => ?_
      apply (ih (position + 1)).bind_pure
      rintro k ms ⟨hcount, hids, hms, hrest⟩
      refine ⟨by rw [List.length_cons, hcount], fun i m' hi => ?_,
        List.forall_mem_cons.mpr ⟨hm, hms⟩, ?_⟩
      · cases i with
        | zero =>
            cases hi
            exact not_not.mp hid
        | succ i => rw [hids i m' hi, Nat.add_assoc, Nat.add_comm 1 i]
      · rw [List.flatMap_cons, List.length_append]
        exact Nat.add_le_add hlen hrest

theorem consumes_decode : Consumes decode fun n f => f.WellFormed ∧ f.encode.length ≤ n := by
  apply (Decoder.consumes_byte _).bind
  rintro version n₁ rfl
  refine .check fun hversion => Varint.consumes_decode.bind fun numRows n₂ hrows => ?_
  refine Varint.consumes_decode.bind fun numColumns n₃ hcount => ?_
  refine Decoder.consumes_remaining.bind fun left n₄ hleft => .check fun _ => ?_
  apply (consumes_decodeColumns numColumns 0).bind
  rintro columns n₅ ⟨rfl, hids, hcolumns, hlen⟩
  refine (Pointer.consumes_decodeOptional _).bind fun shortKeys n₆ hkeys => ?_
  refine Decoder.consumes_remaining.bind fun left n₇ hleft => .check fun _ => .pure ?_
  refine ⟨⟨not_not.mp hversion, fun i m hi => (hids i m hi).trans (Nat.zero_add i), hcolumns⟩, ?_⟩
  have hwords := hrows _ (Varint.toNat_word_le numRows)
  have hcount := hcount _ le_rfl
  simp only [encode, List.length_append, List.length_cons]
  omega

/-- A footer that is parsed is well formed, and its stored form no longer than what was parsed. -/
theorem wellFormed_of_parse {data : Bytes} {f : Footer} (h : parse data = .ok f) :
    f.WellFormed ∧ f.encode.length ≤ data.length := by
  unfold parse at h
  split at h
  next f' rest hdecode =>
    cases h
    obtain ⟨n, hn, hf, hlen⟩ := consumes_decode _ _ _ hdecode
    exact ⟨hf, by omega⟩
  next => cases h

end Footer

/-- Exactly the well-formed footers come back from their stored form; and whatever bytes are parsed,
they give a well-formed footer, which comes back from its own stored form. -/
theorem footer_codec :
    (∀ f : Footer, f.WellFormed → f.encode.length < 2 ^ 64 → Footer.parse f.encode = .ok f) ∧
    ∀ (data : Bytes) (f : Footer), data.length < 2 ^ 64 → Footer.parse data = .ok f →
      f.WellFormed ∧ f.encode.length ≤ data.length ∧ Footer.parse f.encode = .ok f := by
  constructor
  · exact fun f hf hlen => Footer.parse_encode hf.version hf.columns hf.ids hlen
  · intro data f hdata hparse
    obtain ⟨hf, hle⟩ := Footer.wellFormed_of_parse hparse
    have hback := Footer.parse_encode hf.version hf.columns hf.ids (hle.trans_lt hdata)
    exact ⟨hf, hle, hback⟩

/-- A column of strings with all that a footer can say of it, and a number of rows that is stored
with a digit too many. -/
theorem footer_codec_strings :
    let zones : ZoneMap := { bounds := some (.bytes [97], .bytes [98, 99]), hasNull := true }
    let column : ColumnMeta := {
      id := 0, uniqueId := 9, type := .varchar, length := 4, isNullable := true, encoding := .plain
      compression := .lz4, numRows := 3, pages := #[⟨0, 10⟩], ordinalIndex := some ⟨10, 32⟩
      zoneMaps := some ⟨42, 300⟩, segmentZoneMap := some zones }
    let f : Footer := { numRows := 3, columns := [column], shortKeys := some ⟨342, 33⟩ }
    let data : Bytes := 1 :: 131 :: 0 :: f.encode.drop 2
    data.length < 2 ^ 64 ∧ Footer.parse data = .ok f ∧ f.WellFormed ∧
      f.encode.length < data.length ∧ Footer.parse f.encode = .ok f := by
  intro zones column f data
  have hparse : Footer.parse data = .ok f := by
    apply eq_ok_of_toOption
    decide +kernel
  have hdata : data.length < 2 ^ 64 := by
    decide +kernel
  have hlonger : f.encode.length < data.length := by
    decide +kernel
  obtain ⟨hf, -, -⟩ := footer_codec.2 data f hdata hparse
  exact ⟨hdata, hparse, hf, hlonger, footer_codec.1 f hf (hlonger.trans hdata)⟩

end Columnar
