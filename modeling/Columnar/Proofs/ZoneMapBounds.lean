import Columnar.Proofs.StoredValues
import Columnar.Proofs.ValueOrder
import Columnar.ZoneMap
import Mathlib.Order.MinMax

/-! # Zone maps describe their cells

The flags of a zone map are exact, and its bounds lie around all values, also after they were cut.
A zone map of cells that a field takes comes back from its stored form. -/

namespace Columnar

namespace ZoneMap

/-- What a zone map says about a run of cells. -/
structure Describes (z : ZoneMap) (cells : List Cell) : Prop where
  hasNull_iff : z.hasNull = true ↔ none ∈ cells
  hasNotNull_iff : z.hasNotNull = true ↔ ∃ v, some v ∈ cells
  around : ∀ least greatest, z.bounds = some (least, greatest) → ∀ v, some v ∈ cells →
    (least.cmp v).isLE = true ∧ (v.cmp greatest).isLE = true

/-- The bounds are values of the run itself. -/
def Attained (z : ZoneMap) (cells : List Cell) : Prop :=
  ∀ least greatest, z.bounds = some (least, greatest) → some least ∈ cells ∧ some greatest ∈ cells

theorem describes_empty : ({} : ZoneMap).Describes [] where
  hasNull_iff := by simp
  hasNotNull_iff := by simp [hasNotNull]
  around := by simp

theorem attained_empty : ({} : ZoneMap).Attained [] := by simp [Attained]

/-! ## One more cell -/

theorem lesser_eq_min (v w : Value) : (if v.cmp w = .lt then v else w) = min v w := by
  rw [min_def_lt]
  rfl

theorem greater_eq_max (v w : Value) : (if v.cmp w = .gt then v else w) = max v w := by
  rw [max_comm, max_def_lt]
  simp only [Std.OrientedCmp.gt_iff_lt]
  rfl

/-- The smaller of two values is below both. -/
theorem isLE_lesser (v w : Value) :
    ((if v.cmp w = .lt then v else w).cmp v).isLE = true ∧
      ((if v.cmp w = .lt then v else w).cmp w).isLE = true := by
  rw [lesser_eq_min]
  exact ⟨min_le_left v w, min_le_right v w⟩

/-- The greater of two values is above both. -/
theorem isLE_greater (v w : Value) :
    (v.cmp (if v.cmp w = .gt then v else w)).isLE = true ∧
      (w.cmp (if v.cmp w = .gt then v else w)).isLE = true := by
  rw [greater_eq_max]
  exact ⟨le_max_left v w, le_max_right v w⟩

theorem Describes.update {z : ZoneMap} {cells : List Cell} (h : z.Describes cells) (c : Cell) :
    (z.update c).Describes (cells ++ [c]) := by
  cases c with
  | none =>
      refine ⟨by simp [ZoneMap.update], ?_, ?_⟩
      · simpa [ZoneMap.update, hasNotNull] using h.hasNotNull_iff
      · simpa [ZoneMap.update] using h.around
  | some v =>
      cases hb : z.bounds with
      | none =>
          have hnone : ∀ w, some w ∉ cells := by
            intro w hw
            have hsome := h.hasNotNull_iff.mpr ⟨w, hw⟩
            simp [hasNotNull, hb] at hsome
          refine ⟨?_, ?_, ?_⟩
          · simpa [ZoneMap.update, hb] using h.hasNull_iff
          · simp [ZoneMap.update, hb, hasNotNull]
          · intro least greatest hbounds w hw
            simp only [ZoneMap.update, hb, Option.some.injEq, Prod.mk.injEq] at hbounds
            obtain ⟨rfl, rfl⟩ := hbounds
            rcases List.mem_append.mp hw with hw | hw
            · exact absurd hw (hnone w)
            · obtain rfl : w = v := by simpa using hw
              exact ⟨Std.ReflCmp.isLE_rfl, Std.ReflCmp.isLE_rfl⟩
      | some bounds =>
          obtain ⟨least, greatest⟩ := bounds
          refine ⟨?_, ?_, ?_⟩
          · simpa [ZoneMap.update, hb] using h.hasNull_iff
          · simp [ZoneMap.update, hb, hasNotNull]
          · intro least' greatest' hbounds w hw
            simp only [ZoneMap.update, hb, Option.some.injEq, Prod.mk.injEq] at hbounds
            obtain ⟨rfl, rfl⟩ := hbounds
            have hl := isLE_lesser v least
            have hg := isLE_greater v greatest
            rcases List.mem_append.mp hw with hw | hw
            · have haround := h.around least greatest hb w hw
              exact ⟨Std.TransCmp.isLE_trans hl.2 haround.1,
                Std.TransCmp.isLE_trans haround.2 hg.2⟩
            · obtain rfl : w = v := by simpa using hw
              exact ⟨hl.1, hg.1⟩

theorem Attained.update {z : ZoneMap} {cells : List Cell} (h : z.Attained cells) (c : Cell) :
    (z.update c).Attained (cells ++ [c]) := by
  intro least greatest hbounds
  cases c with
  | none =>
      obtain ⟨hl, hg⟩ := h least greatest (by simpa [ZoneMap.update] using hbounds)
      exact ⟨by simp [hl], by simp [hg]⟩
  | some v =>
      cases hb : z.bounds with
      | none =>
          simp only [ZoneMap.update, hb, Option.some.injEq, Prod.mk.injEq] at hbounds
          obtain ⟨rfl, rfl⟩ := hbounds
          simp
      | some bounds =>
          obtain ⟨hl, hg⟩ := h bounds.1 bounds.2 hb
          simp only [ZoneMap.update, hb, Option.some.injEq, Prod.mk.injEq] at hbounds
          obtain ⟨rfl, rfl⟩ := hbounds
          constructor <;> split <;> simp [hl, hg]

private theorem foldl_update (cells : List Cell) : ∀ {z : ZoneMap} {before : List Cell},
    z.Describes before → z.Attained before →
      (cells.foldl update z).Describes (before ++ cells) ∧
        (cells.foldl update z).Attained (before ++ cells) := by
  induction cells with
  | nil =>
      intro z before hd ha
      simpa using ⟨hd, ha⟩
  | cons c cells ih =>
      intro z before hd ha
      simpa using ih (hd.update c) (ha.update c)

/-- The zone map of a run describes it, and its bounds are values of the run. -/
theorem describes_ofCells (cells : List Cell) :
    (ofCells cells).Describes cells ∧ (ofCells cells).Attained cells := by
  simpa [ofCells] using foldl_update cells describes_empty attained_empty

/-- A value of the run lies between the bounds. -/
theorem Describes.mayContain {z : ZoneMap} {cells : List Cell} (h : z.Describes cells) {v : Value}
    (hv : some v ∈ cells) : z.mayContain v = true := by
  have hsome := h.hasNotNull_iff.mpr ⟨v, hv⟩
  obtain ⟨⟨least, greatest⟩, hb⟩ := Option.isSome_iff_exists.mp hsome
  obtain ⟨hl, hg⟩ := h.around least greatest hb v hv
  have hlow : v.cmp least ≠ .lt := by
    rw [ne_eq, ← Std.OrientedCmp.gt_iff_lt]
    exact Ordering.isLE_iff_ne_gt.mp hl
  have hhigh : v.cmp greatest ≠ .gt := Ordering.isLE_iff_ne_gt.mp hg
  simp [ZoneMap.mayContain, hb, hlow, hhigh]

/-- A zone map that describes a run, and lets none of its values be skipped. -/
structure Covers (z : ZoneMap) (cells : List Cell) : Prop extends z.Describes cells where
  mayContain : ∀ v, some v ∈ cells → z.mayContain v = true

theorem Describes.covers {z : ZoneMap} {cells : List Cell} (h : z.Describes cells) :
    z.Covers cells :=
  ⟨h, fun _ hv => h.mayContain hv⟩

/-! ## Cutting string bounds -/

theorem isLE_take (limit : ℕ) (bs : Bytes) : (compare (bs.take limit) bs).isLE = true := by
  induction bs generalizing limit with
  | nil => simp
  | cons b bs ih =>
      cases limit with
      | zero => rfl
      | succ limit => simpa [List.compare_cons_cons] using ih limit

theorem isLE_cutLeast (limit : ℕ) (v : Value) : ((cutLeast limit v).cmp v).isLE = true := by
  cases v with
  | bytes bs => exact isLE_take limit bs
  | _ => exact Std.ReflCmp.isLE_rfl

/-- The successor of a string lies above all that begin with it. -/
theorem lt_successor {bs s : Bytes} (h : successor? bs = some s) (rest : Bytes) :
    compare (bs ++ rest) s = .lt := by
  induction bs generalizing s with
  | nil => simp [successor?] at h
  | cons b bs ih =>
      rw [successor?] at h
      cases hs : successor? bs with
      | some s' =>
          rw [hs] at h
          cases h
          simpa [List.compare_cons_cons] using ih hs
      | none =>
          simp only [hs] at h
          split at h
          next => simp at h
          next hb =>
            cases h
            have hlt : b < b + 1 := by
              rw [UInt8.lt_iff_toNat_lt, UInt8.toNat_add]
              have hb' : b.toNat ≠ 255 := fun he => hb (UInt8.toNat_inj.mp he)
              have hb256 := b.toNat_lt
              simp only [UInt8.reduceToNat]
              omega
            have hcmp : compare b (b + 1) = .lt := by
              simp [compare, compareOfLessAndEq, hlt]
            simp [List.compare_cons_cons, hcmp]

theorem length_successor_le {bs s : Bytes} (h : successor? bs = some s) :
    s.length ≤ bs.length := by
  induction bs generalizing s with
  | nil => simp [successor?] at h
  | cons b bs ih =>
      rw [successor?] at h
      cases hs : successor? bs with
      | some s' =>
          rw [hs] at h
          cases h
          simpa using ih hs
      | none =>
          simp only [hs] at h
          split at h
          next => simp at h
          next =>
            cases h
            simp

theorem isLE_cutGreatest (limit : ℕ) (v : Value) : (v.cmp (cutGreatest limit v)).isLE = true := by
  cases v with
  | bytes bs =>
      rw [cutGreatest]
      split
      next => exact Std.ReflCmp.isLE_rfl
      next =>
        cases hs : successor? (bs.take limit) with
        | none => exact Std.ReflCmp.isLE_rfl
        | some s =>
            have hlt := lt_successor hs (bs.drop limit)
            rw [List.take_append_drop] at hlt
            change (compare bs s).isLE = true
            simp [hlt]
  | _ => exact Std.ReflCmp.isLE_rfl

/-- Cut bounds lie around what the whole ones did. -/
theorem Describes.truncated {z : ZoneMap} {cells : List Cell} (h : z.Describes cells)
    (limit : ℕ) : (z.truncated limit).Describes cells where
  hasNull_iff := h.hasNull_iff
  hasNotNull_iff := by simpa [ZoneMap.truncated, hasNotNull] using h.hasNotNull_iff
  around := by
    intro least greatest hbounds v hv
    obtain ⟨⟨l, g⟩, hb, hcut⟩ := Option.map_eq_some_iff.mp hbounds
    obtain ⟨rfl, rfl⟩ := Prod.mk.inj hcut
    obtain ⟨hl, hg⟩ := h.around l g hb v hv
    exact ⟨Std.TransCmp.isLE_trans (isLE_cutLeast limit l) hl,
      Std.TransCmp.isLE_trans hg (isLE_cutGreatest limit g)⟩

/-! ## Bounds of a field -/

/-- The least value is not above the greatest. -/
def Ordered (z : ZoneMap) : Prop :=
  ∀ least greatest, z.bounds = some (least, greatest) → least ≤ greatest

/-- The bounds are values of the field, and in order. -/
structure Conforms (f : Field) (z : ZoneMap) : Prop where
  ordered : z.Ordered
  kinds : ∀ least greatest, z.bounds = some (least, greatest) →
    least.kind = f.type.kind ∧ greatest.kind = f.type.kind

theorem kind_cutLeast (limit : ℕ) (v : Value) : (cutLeast limit v).kind = v.kind := by
  cases v <;> rfl

theorem kind_cutGreatest (limit : ℕ) (v : Value) : (cutGreatest limit v).kind = v.kind := by
  cases v with
  | bytes bs =>
      rw [cutGreatest]
      split <;> rfl
  | _ => rfl

theorem ordered_truncated {z : ZoneMap} {cells : List Cell} (hd : z.Describes cells)
    (ha : z.Attained cells) (limit : ℕ) : (z.truncated limit).Ordered := by
  intro least greatest hbounds
  obtain ⟨⟨l, g⟩, hb, -⟩ := Option.map_eq_some_iff.mp hbounds
  obtain ⟨hleast, hgreatest⟩ :=
    (hd.truncated limit).around least greatest hbounds l (ha l g hb).1
  exact Std.TransCmp.isLE_trans hleast hgreatest

/-- The bounds of a run of values of a field are values of the field, also after they were cut. -/
theorem conforms_truncated {f : Field} {z : ZoneMap} {cells : List Cell} (hd : z.Describes cells)
    (ha : z.Attained cells) (hkinds : ∀ v, some v ∈ cells → v.kind = f.type.kind) (limit : ℕ) :
    (z.truncated limit).Conforms f where
  ordered := ordered_truncated hd ha limit
  kinds := by
    intro least greatest hbounds
    obtain ⟨⟨l, g⟩, hb, hcut⟩ := Option.map_eq_some_iff.mp hbounds
    obtain ⟨rfl, rfl⟩ := Prod.mk.inj hcut
    obtain ⟨hl, hg⟩ := ha l g hb
    exact ⟨(kind_cutLeast limit l).trans (hkinds l hl),
      (kind_cutGreatest limit g).trans (hkinds g hg)⟩

/-! ## Stored form -/

/-- The bounds are values of the field whose strings have a length that can be stored. -/
def Storable (f : Field) (z : ZoneMap) : Prop :=
  ∀ least greatest, z.bounds = some (least, greatest) →
    (least.cmp greatest).isLE = true ∧
      ∀ v, v = least ∨ v = greatest →
        v.kind = f.type.kind ∧ ∀ bs, v = .bytes bs → bs.length < 2 ^ 64

/-- Strings are no longer than the zone map that holds them. -/
theorem Conforms.storable {f : Field} {z : ZoneMap} (h : z.Conforms f)
    (hlen : z.encode.length < 2 ^ 64) : z.Storable f := by
  intro least greatest hbounds
  obtain ⟨hleast, hgreatest⟩ := h.kinds least greatest hbounds
  have hparts : z.encode.length = least.encode.length + greatest.encode.length + 1 := by
    rw [encode, hbounds, List.length_cons, List.length_append]
  have hstring : ∀ {v : Value} {bs : Bytes}, v = .bytes bs → bs.length ≤ v.encode.length := by
    rintro v bs rfl
    simp [Value.encode]
  refine ⟨h.ordered least greatest hbounds, ?_⟩
  rintro v (rfl | rfl)
  · exact ⟨hleast, fun bs hbs => (hstring hbs).trans_lt (by omega)⟩
  · exact ⟨hgreatest, fun bs hbs => (hstring hbs).trans_lt (by omega)⟩

open Decoder (Reads)

theorem reads_encode {f : Field} {z : ZoneMap} (h : z.Storable f) :
    Reads (decode f) z.encode z := by
  obtain ⟨bounds, hasNull⟩ := z
  cases bounds with
  | none =>
      cases hasNull <;> exact (Decoder.reads_byte _ _).bind_pure rfl
  | some bounds =>
      obtain ⟨least, greatest⟩ := bounds
      obtain ⟨hle, hvalues⟩ := h least greatest rfl
      obtain ⟨hkl, hll⟩ := hvalues least (.inl rfl)
      obtain ⟨hkg, hlg⟩ := hvalues greatest (.inr rfl)
      have hgreatest := Field.reads_encode hkg hlg
      cases hasNull <;>
        refine (Decoder.reads_byte _ _).bind_cons
          ((Field.reads_encode hkl hll).bind (hgreatest.bind_pure ?_)) <;>
        · rw [if_neg (Ordering.isLE_iff_ne_gt.mp hle)]
          simp [flags]

theorem reads_encodeRecord {f : Field} {z : ZoneMap} (h : z.Storable f)
    (hlen : z.encode.length < 2 ^ 64) : Reads (decodeRecord f) z.encodeRecord z := by
  refine (Varint.reads_encode hlen).bind ((Decoder.reads_take _ _).bind_pure ?_)
  rw [(reads_encode h).run]

theorem two_le_length_encodeRecord (z : ZoneMap) : 2 ≤ z.encodeRecord.length := by
  have hlen := Varint.length_encode_pos z.encode.length
  simp only [encodeRecord, encode, List.length_append, List.length_cons] at hlen ⊢
  omega

/-- The zone maps of all pages come back together. -/
theorem decodeStream_eq_ok {f : Field} {maps : List ZoneMap} (hcount : maps.length < 2 ^ 32)
    (h : ∀ z ∈ maps, z.Storable f ∧ z.encode.length < 2 ^ 64) :
    decodeStream f (Bytes.little 4 maps.length ++ maps.flatMap encodeRecord) = .ok maps [] := by
  have hread : Reads (Decoder.times maps.length (decodeRecord f)) (maps.flatMap encodeRecord)
      maps := Decoder.reads_times fun z hz => reads_encodeRecord (h z hz).1 (h z hz).2
  have hroom : ¬ (maps.flatMap encodeRecord).length / 2 < maps.length := by
    have hle : 2 * maps.length ≤ (maps.flatMap encodeRecord).length :=
      Bytes.mul_length_le_flatMap fun z _ => two_le_length_encodeRecord z
    omega
  rw [decodeStream, (Decoder.reads_word hcount _).bind_append]
  change (if (maps.flatMap encodeRecord).length / 2 < maps.length then _ else
    Decoder.times maps.length (decodeRecord f) >>= _) (maps.flatMap encodeRecord) = _
  rw [if_neg hroom, hread.bind_eq]
  rfl

end ZoneMap

end Columnar
