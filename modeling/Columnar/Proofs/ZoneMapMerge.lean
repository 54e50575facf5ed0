import Columnar.Proofs.ZoneMapBounds
import Mathlib.Data.List.Induction
import Mathlib.Data.List.Perm.Basic

/-! # The zone map of a column is the merge of those of its pages

Merging takes the lesser of two bounds and the greater of two. Cutting bounds keeps their order, so
they may be cut before they are merged or after; and how cells are divided into pages makes no
difference, nor does the order of the pages. -/

namespace Columnar

namespace ZoneMap

variable {limit : ℕ}

/-! ## The least string above a front -/

/-- All strings that begin with `bs` lie below `t`. -/
def Below (bs t : Bytes) : Prop := ∀ more, compare (bs ++ more) t = .lt

theorem Below.cons {b c : UInt8} {bs t : Bytes} (h : Below (b :: bs) (c :: t)) :
    b.toNat < c.toNat ∨ b = c ∧ Below bs t := by
  unfold Below at h
  simp only [List.cons_append, List.compare_cons_cons] at h
  cases hbc : compare b c with
  | lt =>
      rw [← compare_toNat] at hbc
      exact .inl (Nat.compare_eq_lt.mp hbc)
  | eq =>
      refine .inr ⟨Std.LawfulEqOrd.eq_of_compare hbc, fun more => ?_⟩
      have hmore := h more
      rwa [hbc, Ordering.eq_then] at hmore
  | gt =>
      have hnone := h []
      rw [hbc] at hnone
      cases hnone

theorem not_below_nil (bs : Bytes) : ¬ Below bs [] := fun h => by
  have hself := h []
  cases bs <;> cases hself

/-- If one string that begins with `bs` lies below a string that does not, all of them do. -/
theorem below_of_not_prefix {bs t : Bytes} (rest : Bytes) (hfront : ¬ bs <+: t)
    (h : (compare (bs ++ rest) t).isLE) : Below bs t := by
  induction bs generalizing t with
  | nil => exact absurd t.nil_prefix hfront
  | cons b bs ih =>
      cases t with
      | nil => cases h
      | cons c t =>
          intro more
          rw [List.cons_append, List.compare_cons_cons] at h ⊢
          cases hbc : compare b c with
          | lt => rfl
          | gt => rw [hbc] at h; cases h
          | eq =>
              obtain rfl := Std.LawfulEqOrd.eq_of_compare hbc
              rw [hbc, Ordering.eq_then] at h
              exact ih (fun hpre => hfront (List.cons_prefix_cons.mpr ⟨rfl, hpre⟩)) h more

/-- Nothing lies above all strings that begin with a string without a successor. -/
theorem not_below_of_successor_eq_none {bs t : Bytes} (hs : successor? bs = none) :
    ¬ Below bs t := by
  induction bs generalizing t with
  | nil =>
      intro h
      have hself := h t
      rw [List.nil_append, Std.ReflOrd.compare_self] at hself
      cases hself
  | cons b bs ih =>
      rw [successor?] at hs
      cases hbs : successor? bs with
      | some s => simp [hbs] at hs
      | none =>
          obtain rfl : b = 255 := by simpa [hbs] using hs
          cases t with
          | nil => exact not_below_nil _
          | cons c t =>
              intro h
              rcases h.cons with hlt | ⟨-, hrest⟩
              · have hc := c.toNat_lt
                simp only [UInt8.reduceToNat] at hlt
                omega
              · exact ih hbs hrest

/-- The successor of a string is the least one above all that begin with the string. -/
theorem Below.successor_isLE {bs s t : Bytes} (h : Below bs t) (hs : successor? bs = some s) :
    (compare s t).isLE := by
  induction bs generalizing s t with
  | nil => cases hs
  | cons b bs ih =>
      cases t with
      | nil => exact absurd h (not_below_nil _)
      | cons c t =>
          rw [successor?] at hs
          cases hbs : successor? bs with
          | some s' =>
              rw [hbs] at hs
              cases hs
              rw [List.compare_cons_cons]
              rcases h.cons with hlt | ⟨rfl, hrest⟩
              · rw [← compare_toNat, Nat.compare_eq_lt.mpr hlt]
                rfl
              · rw [Std.ReflOrd.compare_self, Ordering.eq_then]
                exact ih hrest hbs
          | none =>
              have hb : b ≠ 255 := fun hb => by simp [hbs, hb] at hs
              obtain rfl : [b + 1] = s := by simpa [hbs, hb] using hs
              have hlt : b.toNat < c.toNat :=
                h.cons.resolve_right fun hsame => not_below_of_successor_eq_none hbs hsame.2
              have hnext : (b + 1).toNat = b.toNat + 1 := by
                have hc := c.toNat_lt
                rw [UInt8.toNat_add]
                simp only [UInt8.reduceToNat]
                omega
              rw [List.compare_cons_cons, ← compare_toNat, hnext]
              rcases Nat.lt_or_eq_of_le (Nat.succ_le_of_lt hlt) with hless | heq
              · rw [Nat.compare_eq_lt.mpr hless]
                rfl
              · rw [Nat.compare_eq_eq.mpr heq, Ordering.eq_then]
                cases t <;> rfl

/-! ## Cutting keeps the order -/

theorem monotone_cutLeast (limit : ℕ) : Monotone (cutLeast limit) := by
  intro v w h
  cases v <;> cases w <;> try exact h
  case bytes.bytes s t => exact Bytes.isLE_take h limit

theorem cutGreatest_bytes_isLE {s t : Bytes} (h : Value.bytes s ≤ .bytes t) :
    cutGreatest limit (.bytes s) ≤ cutGreatest limit (.bytes t) := by
  have hstays : Value.bytes t ≤ cutGreatest limit (.bytes t) := isLE_cutGreatest limit _
  by_cases hs : s.length ≤ limit
  · rw [cutGreatest, if_pos hs]
    exact h.trans hstays
  · by_cases hfront : s.take limit <+: t
    · -- A string no longer than the front is the front itself, which lies below `s`.
      have ht : ¬ t.length ≤ limit := by
        intro ht
        have hwhole : s.take limit = t :=
          hfront.eq_of_length_le (by rw [List.length_take]; omega)
        have hbelow : Value.bytes t ≤ .bytes s := hwhole ▸ isLE_take limit s
        have heq : s = t := Value.bytes.inj (h.antisymm hbelow)
        exact hs (heq ▸ ht)
      have hsame : t.take limit = s.take limit := by
        rw [List.prefix_iff_eq_take, List.length_take_of_le (Nat.le_of_not_le hs)] at hfront
        exact hfront.symm
      rw [cutGreatest, cutGreatest, if_neg hs, if_neg ht, hsame]
      cases successor? (s.take limit) with
      | none => exact h
      | some next => exact le_rfl
    · have hbelow : Below (s.take limit) t := by
        apply below_of_not_prefix (s.drop limit) hfront
        rwa [List.take_append_drop]
      cases hnext : successor? (s.take limit) with
      | none => exact absurd hbelow (not_below_of_successor_eq_none hnext)
      | some next =>
          have hle : Value.bytes next ≤ .bytes t := hbelow.successor_isLE hnext
          rw [cutGreatest, if_neg hs, hnext, Option.getD_some]
          exact hle.trans hstays

theorem monotone_cutGreatest (limit : ℕ) : Monotone (cutGreatest limit) := by
  intro v w h
  by_cases hk : v.kind = w.kind
  · cases v <;> cases w <;> first | exact h | exact cutGreatest_bytes_isLE h | cases hk
  · -- Values of different kinds are compared by their kinds, which stay.
    have hcut : (cutGreatest limit v).kind ≠ (cutGreatest limit w).kind := by
      rwa [kind_cutGreatest, kind_cutGreatest]
    change ((cutGreatest limit v).cmp (cutGreatest limit w)).isLE = true
    rw [Value.cmp_of_kind_ne hcut, kind_cutGreatest, kind_cutGreatest, ← Value.cmp_of_kind_ne hk]
    exact h

/-! ## Merging as a union -/

/-- The bounds around all that lies between either. -/
def hull (b c : Value × Value) : Value × Value := (min b.1 c.1, max b.2 c.2)

instance : Std.Commutative hull where
  comm _ _ := Prod.ext (min_comm ..) (max_comm ..)

instance : Std.Associative hull where
  assoc _ _ _ := Prod.ext (min_assoc ..) (max_assoc ..)

/-- The zone map of all that either is of. -/
def union (z w : ZoneMap) : ZoneMap where
  bounds := Option.merge hull z.bounds w.bounds
  hasNull := z.hasNull || w.hasNull

theorem union_comm (z w : ZoneMap) : z.union w = w.union z := by
  simp only [union, Std.Commutative.comm z.bounds, Bool.or_comm]

theorem union_assoc (z w y : ZoneMap) : (z.union w).union y = z.union (w.union y) := by
  simp only [union, Std.Associative.assoc z.bounds, Bool.or_assoc]

instance : Std.Commutative union := ⟨union_comm⟩

instance : Std.Associative union := ⟨union_assoc⟩

@[simp] theorem empty_union (z : ZoneMap) : ({} : ZoneMap).union z = z := by
  simp [union]

@[simp] theorem union_empty (z : ZoneMap) : z.union {} = z := by
  simp [union]

/-- The zone map of one cell. -/
def ofCell : Cell → ZoneMap
  | none => { hasNull := true }
  | some v => { bounds := some (v, v) }

theorem update_eq_union (z : ZoneMap) (c : Cell) : z.update c = z.union (ofCell c) := by
  obtain ⟨bounds, hasNull⟩ := z
  cases c with
  | none => simp [update, union, ofCell]
  | some v =>
      cases bounds with
      | none => simp [update, union, ofCell]
      | some b =>
          simp only [update, union, ofCell, Option.merge, hull, lesser_eq_min, greater_eq_max,
            min_comm v, max_comm v, Bool.or_false]

theorem merge_eq_union (z : ZoneMap) {w : ZoneMap} (h : w.Ordered) : z.merge w = z.union w := by
  obtain ⟨bounds, hasNull⟩ := w
  cases bounds with
  | none => simp [merge, union]
  | some b =>
      obtain ⟨least, greatest⟩ := b
      have hle : least ≤ greatest := h least greatest rfl
      have hends : (ofCell (some least)).union (ofCell (some greatest)) =
          { bounds := some (least, greatest) } := by
        simp [union, ofCell, hull, hle]
      calc z.merge { bounds := some (least, greatest), hasNull }
          = ({ z with hasNull := z.hasNull || hasNull }.update (some least)).update
              (some greatest) := rfl
        _ = { z with hasNull := z.hasNull || hasNull }.union
              { bounds := some (least, greatest) } := by
            rw [update_eq_union, update_eq_union, union_assoc, hends]
        _ = z.union { bounds := some (least, greatest), hasNull } := by
            simp [union]

theorem foldl_update_eq_union (cells : List Cell) (z : ZoneMap) :
    cells.foldl update z = z.union (ofCells cells) := by
  induction cells generalizing z with
  | nil => simp [ofCells]
  | cons c cells ih =>
      have hrest : ofCells (c :: cells) = (ofCell c).union (ofCells cells) := by
        rw [ofCells, List.foldl_cons, ih, update_eq_union, empty_union]
      rw [List.foldl_cons, ih, update_eq_union, hrest, union_assoc]

theorem ofCells_append (xs ys : List Cell) :
    ofCells (xs ++ ys) = (ofCells xs).union (ofCells ys) := by
  rw [ofCells, List.foldl_append, foldl_update_eq_union]
  rfl

/-! ## Bounds may be cut before or after -/

theorem truncated_union (z w : ZoneMap) (limit : ℕ) :
    (z.union w).truncated limit = (z.truncated limit).union (w.truncated limit) := by
  obtain ⟨bounds, hasNull⟩ := z
  obtain ⟨bounds', hasNull'⟩ := w
  cases bounds <;> cases bounds' <;>
    simp [union, truncated, hull, (monotone_cutLeast limit).map_min,
      (monotone_cutGreatest limit).map_max]

/-- The zone maps of pages are together that of all their cells. -/
theorem foldl_union_pages (pages : List (List Cell)) (limit : ℕ) :
    (pages.map fun cells => (ofCells cells).truncated limit).foldl union {} =
      (ofCells pages.flatten).truncated limit := by
  induction pages using List.reverseRecOn with
  | nil => rfl
  | append_singleton pages cells ih =>
      rw [List.map_append, List.foldl_append, ih, List.flatten_append, ofCells_append,
        truncated_union]
      simp

theorem foldl_merge_eq_union {maps : List ZoneMap} (h : ∀ z ∈ maps, z.Ordered) (z : ZoneMap) :
    maps.foldl merge z = maps.foldl union z := by
  apply List.foldl_ext
  intro w y hy
  exact merge_eq_union w (h y hy)

/-- In whatever order the zone maps of pages are merged, the result is that of all their cells. -/
theorem foldl_merge_pages {maps : List ZoneMap} {pages : List (List Cell)}
    (hperm : maps.Perm (pages.map fun cells => (ofCells cells).truncated limit)) :
    maps.foldl merge {} = (ofCells pages.flatten).truncated limit := by
  have hordered : ∀ z ∈ maps, z.Ordered := by
    intro z hz
    obtain ⟨cells, -, rfl⟩ := List.mem_map.mp (hperm.mem_iff.mp hz)
    obtain ⟨hd, ha⟩ := describes_ofCells cells
    exact ordered_truncated hd ha limit
  calc maps.foldl merge {}
      = maps.foldl union {} := foldl_merge_eq_union hordered {}
    _ = (pages.map fun cells => (ofCells cells).truncated limit).foldl union {} :=
        hperm.foldl_op_eq
    _ = (ofCells pages.flatten).truncated limit := foldl_union_pages pages limit

end ZoneMap

/-! ## What a writer gathers -/

namespace ZoneMapDraft

/-- What is gathered when the cells of the pages are added, and each page is closed. -/
def ofPages (limit : ℕ) (pages : List (List Cell)) : ZoneMapDraft :=
  pages.foldl (fun d cells => (cells.foldl add d).flush) { maxLength := limit }

theorem foldl_add (cells : List Cell) (d : ZoneMapDraft) :
    cells.foldl add d = { d with
      page := cells.foldl ZoneMap.update d.page
      all := cells.foldl ZoneMap.update d.all } := by
  induction cells generalizing d with
  | nil => rfl
  | cons c cells ih => rw [List.foldl_cons, ih]; rfl

/-- Each page has its record, and all cells count for the column. -/
theorem ofPages_eq (limit : ℕ) (pages : List (List Cell)) :
    ofPages limit pages = {
      maxLength := limit
      all := .ofCells pages.flatten
      records := (pages.map fun cells =>
        ((ZoneMap.ofCells cells).truncated limit).encodeRecord).toArray } := by
  induction pages using List.reverseRecOn with
  | nil => rfl
  | append_singleton pages cells ih =>
      rw [ofPages, List.foldl_append, ← ofPages, ih, List.foldl_cons, foldl_add, List.foldl_nil]
      simp [flush, ZoneMap.ofCells]

theorem encode_ofPages (limit : ℕ) (pages : List (List Cell)) :
    (ofPages limit pages).encode = Bytes.little 4 pages.length ++
      (pages.map fun cells => (ZoneMap.ofCells cells).truncated limit).flatMap
        ZoneMap.encodeRecord := by
  rw [ofPages_eq, encode, numPages, List.flatMap_def, List.map_map, List.size_toArray,
    List.length_map]
  rfl

end ZoneMapDraft

/-- The zone maps of the pages of a column come back from what was gathered, and in whatever order
they are merged, the result is the zone map of the column. -/
theorem segment_zoneMap_is_merge {f : Field} (limit : ℕ) {pages : List (List Cell)}
    (hkinds : ∀ cells ∈ pages, ∀ v, some v ∈ cells → v.kind = f.type.kind)
    (hcount : pages.length < 2 ^ 32)
    (hsize : (ZoneMapDraft.ofPages limit pages).encode.length < 2 ^ 64) :
    ∃ maps, ZoneMap.decodeStream f (ZoneMapDraft.ofPages limit pages).encode = .ok maps [] ∧
      maps.length = pages.length ∧
      ∀ order : List ZoneMap, order.Perm maps →
        order.foldl ZoneMap.merge {} = (ZoneMapDraft.ofPages limit pages).segment := by
  let maps := pages.map fun cells => (ZoneMap.ofCells cells).truncated limit
  have hlength : maps.length = pages.length := List.length_map ..
  have hencode := ZoneMapDraft.encode_ofPages limit pages
  have hstorable : ∀ z ∈ maps, z.Storable f ∧ z.encode.length < 2 ^ 64 := by
    intro z hz
    have hrecord : z.encodeRecord.length ≤ (maps.flatMap ZoneMap.encodeRecord).length :=
      (List.sublist_flatten_of_mem (List.mem_map_of_mem hz)).length_le
    have hlen : z.encode.length < 2 ^ 64 := by
      rw [hencode, List.length_append] at hsize
      rw [ZoneMap.encodeRecord, List.length_append] at hrecord
      change (_ + (maps.flatMap ZoneMap.encodeRecord).length) < _ at hsize
      omega
    obtain ⟨cells, hcells, rfl⟩ := List.mem_map.mp hz
    obtain ⟨hd, ha⟩ := ZoneMap.describes_ofCells cells
    exact ⟨(ZoneMap.conforms_truncated hd ha (hkinds cells hcells) limit).storable hlen, hlen⟩
  refine ⟨maps, ?_, hlength, fun order horder => ?_⟩
  · rw [hencode, ← hlength]
    exact ZoneMap.decodeStream_eq_ok (hlength ▸ hcount) hstorable
  · rw [ZoneMap.foldl_merge_pages horder, ZoneMapDraft.ofPages_eq]
    rfl

/-- Strings that are cut and strings that are not, one without a successor, a page without values
and one without cells, merged from the last to the first. -/
theorem segment_zoneMap_is_merge_strings :
    let f : Field := { type := .varchar, length := 0 }
    let pages : List (List Cell) :=
      [[some (.bytes [97, 98, 99]), none], [], [none], [some (.bytes [255, 255, 7])],
        [some (.bytes [97]), some (.bytes [97, 98])]]
    ∃ maps, ZoneMap.decodeStream f (ZoneMapDraft.ofPages 2 pages).encode = .ok maps [] ∧
      maps.length = 5 ∧
      maps.reverse.foldl ZoneMap.merge {} = (ZoneMapDraft.ofPages 2 pages).segment := by
  intro f pages
  have hkinds : ∀ cells ∈ pages, ∀ v, some v ∈ cells → v.kind = f.type.kind := by
    simp only [pages, List.forall_mem_cons]
    simp [f, Value.kind, FieldType.kind]
  obtain ⟨maps, hmaps, hlength, hmerge⟩ :=
    segment_zoneMap_is_merge 2 hkinds (by decide) (by decide +kernel)
  exact ⟨maps, hmaps, hlength, hmerge maps.reverse maps.reverse_perm⟩

end Columnar
