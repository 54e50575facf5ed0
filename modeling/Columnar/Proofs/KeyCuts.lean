import Columnar.Proofs.KeyOrder
import Columnar.Proofs.StoredValues
import Mathlib.Data.List.Forall2

/-! # Keys of cut strings

Rows in order have keys in order as long as only the last column of the key cuts its strings. If
another one does, some rows come in one order and their keys in the other. -/

namespace Columnar

/-- No string that fits the column is cut in a key. -/
def ColumnSchema.KeepsStrings (c : ColumnSchema) : Prop :=
  c.type.isString = true → c.indexLength = 0 ∨ c.length ≠ 0 ∧ c.length ≤ c.indexLength

instance (c : ColumnSchema) : Decidable c.KeepsStrings :=
  inferInstanceAs (Decidable (_ → _))

/-- Strings are kept whole before the last column of the key. -/
def Schema.KeepsOrder (s : Schema) : Prop :=
  ∀ c ∈ (s.columns.take s.shortKeys).dropLast, c.KeepsStrings

instance (s : Schema) : Decidable s.KeepsOrder :=
  inferInstanceAs (Decidable (∀ c ∈ (s.columns.take s.shortKeys).dropLast, c.KeepsStrings))

namespace SortKey

/-! ## Cutting keeps the order -/

theorem isLE_cut {s t : Bytes} (h : (compare s t).isLE) (limit : ℕ) :
    (compare (cut limit s) (cut limit t)).isLE := by
  rw [cut, cut]
  split
  · exact h
  · exact Bytes.isLE_take h limit

theorem isLE_cutValue {v w : Value} (h : (v.cmp w).isLE) (limit : ℕ) :
    ((cutValue limit v).cmp (cutValue limit w)).isLE := by
  cases v <;> cases w <;> try exact h
  case bytes.bytes s t => exact isLE_cut h limit

theorem isLE_cutCell {a b : Cell} (h : (Cell.cmp a b).isLE) (limit : ℕ) :
    (Cell.cmp (a.map (cutValue limit)) (b.map (cutValue limit))).isLE := by
  cases a with
  | none => cases b <;> rfl
  | some v =>
      cases b with
      | none => cases h
      | some w => exact isLE_cutValue h limit

/-! ## Strings that are kept -/

theorem cut_eq_self {limit : ℕ} {bs : Bytes} (h : limit = 0 ∨ bs.length ≤ limit) :
    cut limit bs = bs := by
  rw [cut]
  split
  · rfl
  · exact List.take_of_length_le (by omega)

theorem cutValue_eq_self {c : ColumnSchema} (hkeeps : c.KeepsStrings) {v : Value}
    (hv : c.field.Admits v) : cutValue c.indexLength.toNat v = v := by
  obtain ⟨hkind, hfits⟩ := Field.admits_iff.mp hv
  cases v with
  | bytes bs =>
      have hstring : c.type.isString = true := by
        rw [FieldType.isString, decide_eq_true_eq]
        exact hkind.symm
      refine congrArg Value.bytes (cut_eq_self ?_)
      rcases hkeeps hstring with hall | ⟨hlimited, hle⟩
      · exact .inl (by rw [hall]; rfl)
      · have hlen := hfits bs rfl
        rw [Field.fits, ColumnSchema.field, Bool.or_eq_true, decide_eq_true_eq,
          decide_eq_true_eq] at hlen
        exact .inr ((hlen.resolve_left hlimited).trans (UInt32.le_iff_toNat_le.mp hle))
  | _ => rfl

end SortKey

namespace Schema

/-! ## Rows in order -/

/-- The cells are values of the columns, or absent. -/
def Admits : List ColumnSchema → Row → Prop
  | [], _ => True
  | c :: cs, row => (∀ v ∈ row.head?.join, c.field.Admits v) ∧ Admits cs row.tail

theorem Admits.typed {cs : List ColumnSchema} {row : Row} (h : Admits cs row) : Typed cs row := by
  induction cs generalizing row with
  | nil => trivial
  | cons c cs ih => exact ⟨fun v hv => (h.1 v hv).kind_eq, ih h.2⟩

theorem Admits.take {cs : List ColumnSchema} {row : Row} (h : Admits cs row) (n : ℕ) :
    Admits (cs.take n) row := by
  induction cs generalizing row n with
  | nil =>
      rw [List.take_nil]
      trivial
  | cons c cs ih =>
      cases n with
      | zero => trivial
      | succ n => exact ⟨h.1, ih h.2 n⟩

theorem cutRow_cons_of_keeps {c : ColumnSchema} (hkeeps : c.KeepsStrings) {cs : List ColumnSchema}
    {row : Row} (h : Admits (c :: cs) row) :
    cutRow (c :: cs) row = row.head?.join :: cutRow cs row.tail := by
  have hcell := h.1
  rw [cutRow]
  cases hc : row.head?.join with
  | none => rfl
  | some v =>
      rw [Option.map_some, SortKey.cutValue_eq_self hkeeps (hcell v hc)]

/-- Cutting the last column only keeps rows in order. -/
theorem isLE_cutRow {cs : List ColumnSchema} (hkeeps : ∀ c ∈ cs.dropLast, c.KeepsStrings)
    {a b : Row} (ha : Admits cs a) (hb : Admits cs b) (h : (Row.cmp cs.length a b).isLE) :
    (Row.cmp cs.length (cutRow cs a) (cutRow cs b)).isLE := by
  induction cs generalizing a b with
  | nil => rfl
  | cons c cs ih =>
      cases cs with
      | nil =>
          rw [List.length_singleton, Row.cmp, Row.cmp, Ordering.then_eq] at h ⊢
          exact SortKey.isLE_cutCell h _
      | cons c' cs =>
          rw [List.dropLast_cons_cons, List.forall_mem_cons] at hkeeps
          rw [cutRow_cons_of_keeps hkeeps.1 ha, cutRow_cons_of_keeps hkeeps.1 hb]
          rw [List.length_cons, Row.cmp, Ordering.isLE_then_iff_or] at h ⊢
          exact h.imp_right fun ⟨heq, htail⟩ => ⟨heq, ih hkeeps.2 ha.2 hb.2 htail⟩

/-- Keys are in order if their rows are. -/
theorem isLE_keyOf {cs : List ColumnSchema} (hkeeps : ∀ c ∈ cs.dropLast, c.KeepsStrings)
    {a b : Row} (ha : Admits cs a) (hb : Admits cs b) (h : (Row.cmp cs.length a b).isLE) :
    (compare (keyOf cs a) (keyOf cs b)).isLE := by
  rw [compare_keyOf ha.typed hb.typed]
  exact isLE_cutRow hkeeps ha hb h

end Schema

/-! ## Keys out of order -/

/-- Two values of a kind. -/
def Kind.sample (high : Bool) : Kind → Value
  | .bool => .bool high
  | .int8 => .int8 (if high then 1 else 0)
  | .int16 => .int16 (if high then 1 else 0)
  | .int32 => .int32 (if high then 1 else 0)
  | .int64 => .int64 (if high then 1 else 0)
  | .int128 => .int128 (if high then 1 else 0)
  | .float32 => .float32 (if high then 1 else 0)
  | .float64 => .float64 (if high then 1 else 0)
  | .date => .date (if high then 1 else 0)
  | .datetime => .datetime (if high then 1 else 0)
  | .decimal => .decimal ⟨if high then 1 else 0, 0⟩
  | .bytes => .bytes (if high then [1] else [])

namespace Kind

theorem cmp_sample (k : Kind) : (k.sample true).cmp (k.sample false) = .gt := by
  cases k <;> decide

theorem kind_sample (high : Bool) (k : Kind) : (k.sample high).kind = k := by
  cases k <;> rfl

theorem length_sample_le {high : Bool} {k : Kind} {bs : Bytes} (h : k.sample high = .bytes bs) :
    bs.length ≤ 1 := by
  cases k <;> cases h
  cases high <;> decide

theorem cutValue_sample (limit : ℕ) (high : Bool) (k : Kind) :
    SortKey.cutValue limit (k.sample high) = k.sample high := by
  cases k with
  | bytes =>
      refine congrArg Value.bytes (SortKey.cut_eq_self ?_)
      have hlen := @length_sample_le high .bytes _ rfl
      omega
  | _ => rfl

end Kind

namespace ColumnSchema

variable (c : ColumnSchema)

/-- The cell has a value of the column. -/
def FilledBy (cell : Cell) : Prop := ∃ v ∈ cell, c.field.Admits v

theorem fits_iff (n : ℕ) : c.field.fits n = true ↔ c.length = 0 ∨ n ≤ c.length.toNat := by
  rw [Field.fits, Bool.or_eq_true, decide_eq_true_eq, decide_eq_true_eq]
  rfl

theorem filledBy_sample (high : Bool) : c.FilledBy (some (c.type.kind.sample high)) := by
  refine ⟨_, rfl, Field.admits_iff.mpr ⟨Kind.kind_sample high _, fun bs hbs => ?_⟩⟩
  have hlen := Kind.length_sample_le hbs
  rw [fits_iff]
  by_cases hzero : c.length = 0
  · exact .inl hzero
  · have hpos : c.length.toNat ≠ 0 := fun hz => hzero (UInt32.toNat_inj.mp hz)
    exact .inr (by omega)

/-- A column that cuts its strings takes two that are equal in a key. -/
theorem exists_cut (h : ¬ c.KeepsStrings) : ∃ s t : Bytes, c.FilledBy (some (.bytes s)) ∧
    c.FilledBy (some (.bytes t)) ∧ compare s t = .lt ∧
      SortKey.cut c.indexLength.toNat s = SortKey.cut c.indexLength.toNat t := by
  obtain ⟨hstring, hcut⟩ := Classical.not_imp.mp h
  obtain ⟨hlimited, hlong⟩ := not_or.mp hcut
  have hkind : (Value.bytes []).kind = c.type.kind := by
    rw [FieldType.isString, decide_eq_true_eq] at hstring
    exact hstring.symm
  let s : Bytes := List.replicate c.indexLength.toNat 0
  have hlen : s.length = c.indexLength.toNat := List.length_replicate
  have hfits : c.length = 0 ∨ c.indexLength.toNat + 1 ≤ c.length.toNat := by
    by_cases hzero : c.length = 0
    · exact .inl hzero
    · right
      have hlt : ¬ c.length ≤ c.indexLength := fun hle => hlong ⟨hzero, hle⟩
      rw [UInt32.le_iff_toNat_le] at hlt
      omega
  have hfilled : ∀ b : UInt8, c.FilledBy (some (.bytes (s ++ [b]))) := by
    intro b
    refine ⟨_, rfl, Field.admits_iff.mpr ⟨hkind, fun bs hbs => ?_⟩⟩
    cases hbs
    rw [fits_iff, List.length_append, hlen]
    exact hfits
  have hsame : ∀ b : UInt8, SortKey.cut c.indexLength.toNat (s ++ [b]) = s := by
    intro b
    have hpos : c.indexLength.toNat ≠ 0 := fun hz => hlimited (UInt32.toNat_inj.mp hz)
    rw [SortKey.cut, if_neg hpos, ← hlen, List.take_left]
  refine ⟨s ++ [0], s ++ [1], hfilled 0, hfilled 1, ?_, (hsame 0).trans (hsame 1).symm⟩
  rw [SortKey.compare_append_self]
  rfl

end ColumnSchema

namespace Schema

/-- The row has a value for each of the columns. -/
def Fills (cs : List ColumnSchema) (row : Row) : Prop := List.Forall₂ ColumnSchema.FilledBy cs row

theorem fills_samples (cs : List ColumnSchema) :
    Fills cs (cs.map fun c => some (c.type.kind.sample false)) := by
  rw [Fills, List.forall₂_map_right_iff, List.forall₂_same]
  exact fun c _ => c.filledBy_sample false

/-- Two rows that differ in a string behind what counts of it, and then the other way round. -/
theorem exists_disordered_of_cut {c : ColumnSchema} (h : ¬ c.KeepsStrings) (c' : ColumnSchema)
    (cs : List ColumnSchema) (n : ℕ) : ∃ a b : Row, Fills (c :: c' :: cs) a ∧
      Fills (c :: c' :: cs) b ∧ Row.cmp (n + 2) a b = .lt ∧
        compare (keyOf (c :: c' :: cs.take n) a) (keyOf (c :: c' :: cs.take n) b) = .gt := by
  obtain ⟨s, t, hs, ht, hlt, hsame⟩ := c.exists_cut h
  let v := c'.type.kind.sample true
  let w := c'.type.kind.sample false
  let rest : Row := cs.map fun c => some (c.type.kind.sample false)
  refine ⟨some (.bytes s) :: some v :: rest, some (.bytes t) :: some w :: rest,
    .cons hs (.cons (c'.filledBy_sample true) (fills_samples cs)),
    .cons ht (.cons (c'.filledBy_sample false) (fills_samples cs)), ?_, ?_⟩
  · change (compare s t).then _ = .lt
    rw [hlt]
    rfl
  · have hcell : SortKey.encodeCell c.indexLength.toNat (some (.bytes s)) =
        SortKey.encodeCell c.indexLength.toNat (some (.bytes t)) := by
      rw [SortKey.encodeCell, SortKey.encode, hsame]
      rfl
    change compare (SortKey.encodeCell _ (some (.bytes s)) ++
        (SortKey.encodeCell _ (some v) ++ keyOf (cs.take n) rest))
      (SortKey.encodeCell _ (some (.bytes t)) ++
        (SortKey.encodeCell _ (some w) ++ keyOf (cs.take n) rest)) = .gt
    rw [hcell, SortKey.compare_append_self, SortKey.compare_encodeCell]
    · change (Value.cmp (SortKey.cutValue _ v) (SortKey.cutValue _ w)).then _ = .gt
      rw [Kind.cutValue_sample, Kind.cutValue_sample, Kind.cmp_sample]
      rfl
    · rintro _ ⟨⟩ _ ⟨⟩
      rw [Kind.kind_sample, Kind.kind_sample]

/-- If a column before the last of the key cuts its strings, there are rows whose keys come in the
other order. -/
theorem exists_disordered {cs : List ColumnSchema} {n : ℕ}
    (h : ¬ ∀ c ∈ (cs.take n).dropLast, c.KeepsStrings) : ∃ a b : Row, Fills cs a ∧ Fills cs b ∧
      Row.cmp n a b = .lt ∧ compare (keyOf (cs.take n) a) (keyOf (cs.take n) b) = .gt := by
  induction cs generalizing n with
  | nil => simp at h
  | cons c cs ih =>
      cases n with
      | zero => simp at h
      | succ n =>
          by_cases hrest : ∀ c' ∈ (cs.take n).dropLast, c'.KeepsStrings
          · -- The column cuts its strings, and another one of the key comes behind it.
            cases cs with
            | nil => simp at h
            | cons c' cs =>
                cases n with
                | zero => simp at h
                | succ n =>
                    rw [List.take_succ_cons, List.take_succ_cons] at h ⊢
                    rw [List.take_succ_cons] at hrest
                    rw [List.dropLast_cons_cons, List.forall_mem_cons] at h
                    exact exists_disordered_of_cut (fun hc => h ⟨hc, hrest⟩) c' cs n
          · obtain ⟨a, b, ha, hb, hrows, hkeys⟩ := ih hrest
            let v := c.type.kind.sample false
            refine ⟨some v :: a, some v :: b, .cons (c.filledBy_sample false) ha,
              .cons (c.filledBy_sample false) hb, ?_, ?_⟩
            · change (v.cmp v).then (Row.cmp n a b) = .lt
              rw [@Std.ReflCmp.compare_self _ Value.cmp _ v, Ordering.eq_then]
              exact hrows
            · change compare (SortKey.encodeCell _ (some v) ++ keyOf (cs.take n) a)
                (SortKey.encodeCell _ (some v) ++ keyOf (cs.take n) b) = .gt
              rw [SortKey.compare_append_self]
              exact hkeys

end Schema

end Columnar
