import Columnar.OrdinalIndex
import Columnar.Proofs.Reads

/-! # Finding the page of a row

An ordinal index whose pages are in order comes back from its stored form. It cuts the rows into the
ranges of the pages, and the search for a row ends at the page that holds it. -/

namespace Columnar

open Decoder (Reads)

theorem PageEntry.reads_encode (e : PageEntry) : Reads PageEntry.decode e.encode e := by
  rw [PageEntry.encode, List.append_assoc]
  exact (Decoder.reads_word64 e.firstOrdinal _).bind
    ((Decoder.reads_word64 e.pointer.offset _).bind
      ((Decoder.reads_word32 e.pointer.size _).bind_pure rfl))

namespace OrdinalIndex

/-! ## Pages in order -/

/-- The pages begin at row 0, each behind the one before, and there are pages if there are rows. -/
structure Ordered (numRows : ℕ) (entries : List PageEntry) : Prop where
  head : ∀ e ∈ entries.head?, e.firstOrdinal.toNat = 0
  ascending : entries.Pairwise fun d e => d.firstOrdinal.toNat < e.firstOrdinal.toNat
  below : ∀ e ∈ entries, e.firstOrdinal.toNat < numRows
  nil_iff : entries = [] ↔ numRows = 0

theorem misplaced?_eq_none {numRows position next : ℕ} {entries : List PageEntry}
    (hhead : ∀ e ∈ entries.head?, if position = 0 then e.firstOrdinal.toNat = 0
      else next ≤ e.firstOrdinal.toNat)
    (hasc : entries.Pairwise fun d e => d.firstOrdinal.toNat < e.firstOrdinal.toNat)
    (hbelow : ∀ e ∈ entries, e.firstOrdinal.toNat < numRows) :
    misplaced? numRows position next entries = none := by
  induction entries generalizing position next with
  | nil => rfl
  | cons e entries ih =>
      obtain ⟨hbehind, hasc⟩ := List.pairwise_cons.mp hasc
      rw [misplaced?, if_pos ⟨hhead e rfl, hbelow e (by simp)⟩]
      refine ih ?_ hasc fun d hd => hbelow d (by simp [hd])
      intro d hd
      rw [if_neg (by omega)]
      exact hbehind d (List.mem_of_head? hd)

/-- The index comes back from its stored form. -/
theorem parse_encode {numRows : ℕ} {entries : List PageEntry} (h : Ordered numRows entries)
    (hcount : entries.length < 2 ^ 32) :
    parse (encode entries) numRows = .ok ⟨entries.toArray, numRows⟩ := by
  have hlen : (entries.flatMap PageEntry.encode).length = entries.length * PageEntry.size := by
    simp [List.length_flatMap, List.map_const']
  have hentries : Reads (Decoder.times entries.length PageEntry.decode)
      (entries.flatMap PageEntry.encode) entries :=
    Decoder.reads_times fun e _ => e.reads_encode
  have hplaced : misplaced? numRows 0 0 entries = none :=
    misplaced?_eq_none (by simpa using h.head) h.ascending h.below
  have hempty : ¬ entries.isEmpty ≠ (numRows == 0) := by
    rw [not_not, Bool.eq_iff_iff, List.isEmpty_iff, beq_iff_eq]
    exact h.nil_iff
  have hdecode : decode numRows (encode entries) = .ok ⟨entries.toArray, numRows⟩ [] := by
    rw [decode, encode, (Decoder.reads_word hcount _).bind_append]
    change (if (entries.flatMap PageEntry.encode).length ≠ entries.length * PageEntry.size then _
      else Decoder.times entries.length PageEntry.decode >>= _)
        (entries.flatMap PageEntry.encode) = _
    rw [if_neg (not_not.mpr hlen), hentries.bind_eq, hplaced]
    change (if entries.isEmpty ≠ (numRows == 0) then _ else _ : Decoder OrdinalIndex) [] = _
    rw [if_neg hempty]
    rfl
  rw [parse, hdecode]

/-! ## The page of a row -/

variable {x : OrdinalIndex}

/-- Each page begins behind the one before. -/
theorem first?_lt (h : Ordered x.numRows x.entries.toList) {i j a b : ℕ} (hij : i < j)
    (hi : x.first? i = some a) (hj : x.first? j = some b) : a < b := by
  obtain ⟨d, hd, rfl⟩ := Option.map_eq_some_iff.mp hi
  obtain ⟨e, he, rfl⟩ := Option.map_eq_some_iff.mp hj
  obtain ⟨hi', rfl⟩ := Array.getElem?_eq_some_iff.mp hd
  obtain ⟨hj', rfl⟩ := Array.getElem?_eq_some_iff.mp he
  have hasc := List.pairwise_iff_getElem.mp h.ascending i j (by simpa) (by simpa) hij
  simpa using hasc

theorem first?_zero (h : Ordered x.numRows x.entries.toList) (hrows : x.numRows ≠ 0) :
    x.first? 0 = some 0 := by
  have hne : x.entries.toList ≠ [] := fun he => hrows (h.nil_iff.mp he)
  obtain ⟨e, he⟩ := Option.isSome_iff_exists.mp (List.isSome_head?.mpr hne)
  have hzero := h.head e he
  rw [List.head?_eq_getElem?, Array.getElem?_toList] at he
  simp [first?, he, hzero]

theorem first?_eq_none {i : ℕ} (h : x.numPages ≤ i) : x.first? i = none := by
  simp [first?, numPages] at h ⊢
  exact h

theorem lt_numPages_of_first? {i a : ℕ} (h : x.first? i = some a) : i < x.numPages := by
  by_contra hge
  rw [first?_eq_none (Nat.le_of_not_lt hge)] at h
  cases h

theorem first?_isSome {i : ℕ} (h : i < x.numPages) : ∃ a, x.first? i = some a := by
  have hsize : i < x.entries.size := h
  exact ⟨_, by rw [first?, Array.getElem?_eq_getElem hsize]; rfl⟩

/-- Each page before has a row at least. -/
theorem le_first? (h : Ordered x.numRows x.entries.toList) {i a : ℕ} (hi : x.first? i = some a) :
    i ≤ a := by
  induction i generalizing a with
  | zero => exact Nat.zero_le a
  | succ i ih =>
      obtain ⟨b, hb⟩ := first?_isSome (Nat.lt_of_succ_lt (lt_numPages_of_first? hi))
      exact Nat.lt_of_le_of_lt (ih hb) (first?_lt h i.lt_succ_self hb hi)

/-- If a page begins at a row or before it, so does each page before that one. -/
theorem first?_any_le (h : Ordered x.numRows x.entries.toList) {ordinal i j : ℕ} (hij : i ≤ j)
    (hj : (x.first? j).any (· ≤ ordinal) = true) : (x.first? i).any (· ≤ ordinal) = true := by
  rcases Nat.lt_or_eq_of_le hij with hij | rfl
  · obtain ⟨b, hb, hle⟩ := Option.any_eq_true _ _ |>.mp hj
    obtain ⟨a, ha⟩ := first?_isSome (hij.trans (lt_numPages_of_first? hb))
    have hao : a ≤ ordinal := (first?_lt h hij ha hb).le.trans (of_decide_eq_true hle)
    simp [ha, hao]
  · exact hj

/-- The search for a row ends at the page whose range holds it. -/
theorem findPage_spec (h : Ordered x.numRows x.entries.toList) {ordinal : ℕ}
    (hord : ordinal < x.numRows) :
    ∃ first stop, x.range? (x.findPage ordinal) = some (first, stop) ∧
      first ≤ ordinal ∧ ordinal < stop := by
  let holds := fun page => (x.first? page).any (· ≤ ordinal)
  let found := bisect holds 0 x.numPages
  have hdown : ∀ i j, i ≤ j → holds j = true → holds i = true :=
    fun i j hij hj => first?_any_le h hij hj
  have hbounds : found ≤ x.numPages := (bisect_bounds (Nat.zero_le _)).2
  have hspec : ∀ i, i < x.numPages → (holds i = true ↔ i < found) := fun i hi =>
    bisect_spec hdown i (Nat.zero_le i) hi
  have hzero := first?_zero h (by omega)
  have hpages := lt_numPages_of_first? hzero
  have hfound : 0 < found := (hspec 0 hpages).mp (by simp [holds, hzero])
  obtain ⟨first, hfirst⟩ := first?_isSome (x := x) (i := found - 1) (by omega)
  have hle : first ≤ ordinal := by
    have hholds := (hspec (found - 1) (by omega)).mpr (by omega)
    simpa [holds, hfirst] using hholds
  refine ⟨first, (x.first? found).getD x.numRows, ?_, hle, ?_⟩
  · have hnext : x.findPage ordinal + 1 = found := Nat.sub_add_cancel hfound
    change (x.first? (found - 1)).map _ = _
    rw [hfirst, Option.map_some, hnext]
  · rcases Nat.lt_or_eq_of_le hbounds with hlt | heq
    · obtain ⟨next, hnext⟩ := first?_isSome (x := x) (i := found) hlt
      have hnot : ¬ holds found = true := fun hholds =>
        absurd ((hspec found hlt).mp hholds) (lt_irrefl _)
      simp only [holds, hnext, Option.any_some, decide_eq_true_eq, not_le] at hnot
      rwa [hnext]
    · rw [first?_eq_none heq.ge]
      exact hord

end OrdinalIndex

end Columnar
