import Columnar.Lz4.Matcher
import Columnar.Proofs.Calls
import Columnar.Proofs.ColumnSections
import Columnar.Proofs.OfferedCells

/-! # What a column holds back

The estimate of a column counts the pages that are closed, the page that is being filled, the
ordinal index and the zone maps. Writing pages moves their bytes from the estimate to the file. Once
the column is finished, the estimate is what will be appended, and the two bytes of a page without
cells. -/

namespace Columnar

namespace OutputFile

/-- Whether bytes are held back or not, they count. -/
theorem size_append (out : OutputFile) (bs : Bytes) :
    (out.append bs).size = out.size + bs.length := by
  cases out with
  | memory bytes => exact Lz4.size_appendList bytes bs
  | disk stored position held =>
      rw [append]
      by_cases hroom : held.size + bs.length ≤ capacity ∧ bs.length < capacity
      · rw [if_pos hroom, size, size, Lz4.size_appendList]
        omega
      · rw [if_neg hroom]
        by_cases hshort : bs.length < capacity
        · rw [if_pos hshort]
          rfl
        · rw [if_neg hshort]
          rfl

/-- `bs` is appended to the file, in one piece or in several. -/
def Grows (out out' : OutputFile) (bs : Bytes) : Prop :=
  ∃ pieces : List Bytes, pieces.flatten = bs ∧ out' = pieces.foldl append out

namespace Grows

variable {out out' : OutputFile} {bs : Bytes}

theorem refl (out : OutputFile) : Grows out out [] := ⟨[], rfl, rfl⟩

theorem cons {piece : Bytes} (h : Grows (out.append piece) out' bs) :
    Grows out out' (piece ++ bs) := by
  obtain ⟨pieces, rfl, rfl⟩ := h
  exact ⟨piece :: pieces, rfl, rfl⟩

theorem append (out : OutputFile) (bs : Bytes) : Grows out (out.append bs) bs := by
  simpa using (refl (out.append bs)).cons

theorem size_eq (h : Grows out out' bs) : out'.size = out.size + bs.length := by
  obtain ⟨pieces, rfl, rfl⟩ := h
  induction pieces generalizing out with
  | nil => rfl
  | cons piece pieces ih =>
      rw [List.foldl_cons, ih, size_append, List.flatten_cons, List.length_append]
      omega

end Grows

end OutputFile

/-! ## The parts of the estimate -/

theorem OrdinalIndex.length_encode (entries : List PageEntry) :
    (encode entries).length = encodedSize entries.length := by
  simp [encode, encodedSize, List.length_flatMap, List.map_const']

/-- Lengths that are added up one after the other. -/
theorem Bytes.foldl_add_length (parts : List Bytes) (n : ℕ) :
    parts.foldl (fun size part => size + part.length) n = n + parts.flatten.length := by
  induction parts generalizing n with
  | nil => rfl
  | cons part parts ih =>
      rw [List.foldl_cons, ih, List.flatten_cons, List.length_append, Nat.add_assoc]

theorem ZoneMapDraft.length_encode (d : ZoneMapDraft) : d.encode.length = d.size := by
  rw [encode, size, ← Array.foldl_toList, Bytes.foldl_add_length, List.length_append,
    Bytes.length_little]

/-- A page without cells counts its number of cells and the byte that says that none is null. -/
theorem Page.Draft.estimatedSize_of_nil (f : PageFormat) : (of f []).estimatedSize = 2 := by
  rw [estimatedSize, numRows_of, Varint.size_eq_one (by decide)]
  rfl

namespace ColumnWriter

variable {w w' : ColumnWriter} {out out' : OutputFile}

/-- The pages that are closed and not written, one behind the other. -/
def closedBytes (w : ColumnWriter) : Bytes := w.closed.toList.flatMap ClosedPage.bytes

/-- The zone maps as they are stored, if the column has any. -/
def zoneMapBytes (w : ColumnWriter) : Bytes := (w.zoneMaps.map ZoneMapDraft.encode).getD []

/-- The counter tells how many bytes the closed pages have. -/
def Tallied (w : ColumnWriter) : Prop := w.closedSize = w.closedBytes.length

/-- Each page that is closed has its entry in the index, before it is written and after. -/
theorem Tallied.estimatedSize_eq (h : w.Tallied) :
    w.estimatedSize = w.page.estimatedSize + w.closedBytes.length
      + OrdinalIndex.encodedSize (w.index.size + w.closed.size) + w.zoneMapBytes.length := by
  have hmaps : (w.zoneMaps.map ZoneMapDraft.size).getD 0 = w.zoneMapBytes.length := by
    rw [zoneMapBytes]
    cases w.zoneMaps with
    | none => rfl
    | some draft => exact draft.length_encode.symm
  rw [Tallied] at h
  rw [estimatedSize, hmaps, h]
  simp only [OrdinalIndex.encodedSize, Nat.add_mul]
  omega

/-! ## Taking cells -/

theorem tallied_new {id : UInt32} {c : ColumnSchema} {o : ColumnOptions}
    (h : new id c o = .ok w) : w.Tallied := by
  unfold new at h
  obtain ⟨-, h⟩ := of_check_eq_ok h
  obtain ⟨format, -, h⟩ := of_bind_eq_ok h
  cases h
  rfl

namespace Tallied

theorem add (h : w.Tallied) (c : Cell) : (w.add c).Tallied := h

theorem pushPage (h : w.Tallied) (bytes : Bytes) : (w.pushPage bytes).Tallied := by
  have hbytes : (w.pushPage bytes).closedBytes = w.closedBytes ++ bytes := by
    simp [ColumnWriter.pushPage, closedBytes]
  rw [Tallied] at h ⊢
  rw [hbytes, List.length_append, ← h]
  rfl

variable [Lz4.Compressor]

/-- A page that cannot be closed is not counted. -/
theorem closePage (h : w.Tallied) : (settle (closePage w)).2.Tallied := by
  unfold ColumnWriter.closePage
  split
  next => exact h
  next =>
    split
    next bytes page _ => exact pushPage (w := { w with page }) h bytes
    next => exact h

theorem append (h : w.Tallied) (c : Cell) : (settle (append c w)).2.Tallied := by
  rw [ColumnPlan.append_eq]
  split
  next => exact h
  next =>
    split
    next => exact h
    next =>
      split
      next => exact (h.add c).closePage
      next => exact h.add c

theorem offer (h : w.Tallied) (offered : List Cell) : (offer offered w).2.Tallied := by
  induction offered generalizing w with
  | nil => exact h
  | cons c offered ih =>
      have hnext := h.append c
      rw [ColumnWriter.offer]
      cases hrun : ColumnWriter.append c w <;> rw [hrun] at hnext <;> exact ih hnext

theorem finish (h : w.Tallied) (hrun : finish w = .ok () w') : w'.Tallied := by
  obtain ⟨_, w₁, hclose, hset⟩ := bind_eq_ok hrun
  cases hset
  have hclosed := h.closePage
  rw [hclose] at hclosed
  exact hclosed

end Tallied

/-! ## Writing the sections -/

theorem writePages_grows {pages : List ClosedPage}
    (h : writePages pages (w, out) = .ok () (w', out')) :
    out.Grows out' (pages.flatMap ClosedPage.bytes) ∧ w'.index.size = w.index.size + pages.length ∧
      w'.closed = w.closed ∧ w'.page = w.page ∧ w'.zoneMaps = w.zoneMaps := by
  induction pages generalizing w out with
  | nil =>
      cases h
      exact ⟨.refl _, rfl, rfl, rfl, rfl⟩
  | cons page pages ih =>
      obtain ⟨pointer, -, h⟩ := writePages_cons_eq_ok h
      obtain ⟨hgrows, hindex, hrest⟩ := ih h
      refine ⟨hgrows.cons, ?_, hrest⟩
      rw [hindex, Array.size_push, List.length_cons]
      omega

/-- The pages go from the estimate to the file. -/
theorem Tallied.writeData (ht : w.Tallied) (h : writeData (w, out) = .ok () (w', out')) :
    out.Grows out' w.closedBytes ∧ w'.estimatedSize + w.closedBytes.length = w.estimatedSize ∧
      w'.index.size = w.index.size + w.closed.size ∧ w'.zoneMaps = w.zoneMaps := by
  obtain ⟨w₁, out₁, -, hwrite, hs⟩ := writeData_eq_ok h
  cases hs
  obtain ⟨hgrows, hindex, hclosed, hpage, hmaps⟩ := writePages_grows hwrite
  dsimp only at hindex hclosed hpage hmaps
  rw [Array.length_toList] at hindex
  refine ⟨hgrows, ?_, hindex, hmaps⟩
  have hnone : ({ w₁ with closedSize := 0 } : ColumnWriter).closedBytes = [] := by
    rw [closedBytes, hclosed]
    rfl
  have ht' : ({ w₁ with closedSize := 0 } : ColumnWriter).Tallied := by
    rw [Tallied, hnone]
    rfl
  have hsame : w₁.zoneMapBytes = w.zoneMapBytes := by rw [zoneMapBytes, hmaps, zoneMapBytes]
  rw [ht'.estimatedSize_eq, ht.estimatedSize_eq, hnone]
  simp only [zoneMapBytes] at hsame ⊢
  rw [hindex, hclosed, hpage, hsame]
  simp only [List.length_nil, List.size_toArray, Nat.add_zero]
  omega

theorem writeOrdinalIndex_grows (h : writeOrdinalIndex (w, out) = .ok () (w', out')) :
    out.Grows out' (OrdinalIndex.encode w.index.toList) ∧ w'.zoneMaps = w.zoneMaps := by
  obtain ⟨p, -, -, hs⟩ := writeOrdinalIndex_eq_ok h
  cases hs
  exact ⟨.append _ _, rfl⟩

theorem writeZoneMaps_grows (h : writeZoneMaps (w, out) = .ok () (w', out')) :
    out.Grows out' w.zoneMapBytes := by
  obtain ⟨-, ⟨hnone, hs⟩ | ⟨draft, p, hdraft, -, hs⟩⟩ := writeZoneMaps_eq_ok h
  · cases hs
    rw [zoneMapBytes, hnone]
    exact .refl _
  · cases hs
    rw [zoneMapBytes, hdraft]
    exact .append _ _

end ColumnWriter

/-- Whatever cells are offered to a column, rejected ones among them, and wherever its sections are
written once it is finished: writing the pages lowers the estimate by what is appended, and all
sections together are what was estimated when the column was finished, but for two bytes. -/
theorem estimate_is_written [Lz4.Compressor] {id : UInt32} {c : ColumnSchema} {o : ColumnOptions}
    {offered taken : List Cell} {w₀ w₁ w₂ w₃ : ColumnWriter} {out₀ out₁ : OutputFile}
    (hnew : ColumnWriter.new id c o = .ok w₀)
    (hoffer : ColumnWriter.offer offered w₀ = (taken, w₁))
    (hfinish : ColumnWriter.finish w₁ = .ok () w₂)
    (hdata : ColumnWriter.writeData (w₂, out₀) = .ok () (w₃, out₁)) :
    ∃ data, out₀.Grows out₁ data ∧ w₃.estimatedSize + data.length = w₂.estimatedSize ∧
      ∀ {w₄ w₅ out₂ out₃ out₄ out₅},
        ColumnWriter.writeOrdinalIndex (w₃, out₂) = .ok () (w₄, out₃) →
        ColumnWriter.writeZoneMaps (w₄, out₄) = .ok () (w₅, out₅) →
          ∃ index maps, out₂.Grows out₃ index ∧ out₄.Grows out₅ maps ∧
            data.length + index.length + maps.length = w₂.estimatedSize - 2 := by
  obtain ⟨plan, -, -, -, -, -, hholds, hopen⟩ := ColumnPlan.new_eq_ok hnew
  have hstart : plan.Holds (plan.runsOf []) w₀ := hholds
  obtain ⟨-, hleft⟩ := hstart.offer hopen (by simp) offered
  have htallied := (ColumnWriter.tallied_new hnew).offer offered
  rw [hoffer] at hleft htallied
  have htallied := htallied.finish hfinish
  obtain ⟨hfinished, -⟩ := hleft.finish hfinish
  have hpage : w₂.page.estimatedSize = 2 := by
    rw [hfinished.page, Page.Runs.current_close, Page.Draft.estimatedSize_of_nil]
  obtain ⟨hgrows, hestimate, hindex, hmaps⟩ := htallied.writeData hdata
  refine ⟨_, hgrows, hestimate, fun {w₄ w₅ out₂ out₃ out₄ out₅} hwrite hwrite' => ?_⟩
  obtain ⟨hgrows', hmaps'⟩ := ColumnWriter.writeOrdinalIndex_grows hwrite
  refine ⟨_, _, hgrows', ColumnWriter.writeZoneMaps_grows hwrite', ?_⟩
  have hsame : w₄.zoneMapBytes = w₂.zoneMapBytes := by
    rw [ColumnWriter.zoneMapBytes, hmaps', hmaps, ColumnWriter.zoneMapBytes]
  have hentries : w₃.index.toList.length = w₂.index.size + w₂.closed.size :=
    Array.length_toList.trans hindex
  rw [OrdinalIndex.length_encode, hentries, hsame, htallied.estimatedSize_eq, hpage]
  omega

attribute [local instance] Lz4.matcher

/-- Strings on two pages, with zone maps, that are written to a file on disk. A string that is too
long and a number are refused. -/
theorem estimate_is_written_strings :
    let c : ColumnSchema :=
      { uniqueId := 1, name := "tag", type := .varchar, length := 3, isNullable := true }
    let o : ColumnOptions :=
      { encoding := some .dictionary, needZoneMap := true, dataPageSize := 64, maxRowsPerPage := 3 }
    let s (bs : Bytes) : Cell := some (.bytes bs)
    let offered : List Cell :=
      [s [97, 98], none, s [1, 2, 3, 4], s [97, 98], some (.int32 7), s [99]]
    ∃ taken w₀ w₁ w₂ w₃ w₄ w₅ out₁ out₂ out₃, ColumnWriter.new 0 c o = .ok w₀ ∧
      ColumnWriter.offer offered w₀ = (taken, w₁) ∧ ColumnWriter.finish w₁ = .ok () w₂ ∧
      w₂.estimatedSize = 96 ∧
      ColumnWriter.writeData (w₂, .disk #[] 0 #[]) = .ok () (w₃, out₁) ∧
      w₃.estimatedSize = 64 ∧ out₁.size = 32 ∧
      ColumnWriter.writeOrdinalIndex (w₃, out₁) = .ok () (w₄, out₂) ∧
      ColumnWriter.writeZoneMaps (w₄, out₂) = .ok () (w₅, out₃) ∧ out₃.size = 94 := by
  intro c o s offered
  have hrun : ((ColumnWriter.new 0 c o).toOption.bind fun w₀ =>
      (outcome? (ColumnWriter.finish (ColumnWriter.offer offered w₀).2)).bind fun t₂ =>
        (outcome? (ColumnWriter.writeData (t₂.2, .disk #[] 0 #[]))).bind fun t₃ =>
          (outcome? (ColumnWriter.writeOrdinalIndex t₃.2)).bind fun t₄ =>
            (outcome? (ColumnWriter.writeZoneMaps t₄.2)).map fun _ =>
              (t₂.2.estimatedSize, t₃.2.1.estimatedSize)) = some (96, 64) := by
    decide +kernel
  obtain ⟨w₀, hnew, hrun⟩ := Option.bind_eq_some_iff.mp hrun
  obtain ⟨⟨_, w₂⟩, hfinish, hrun⟩ := Option.bind_eq_some_iff.mp hrun
  obtain ⟨⟨_, w₃, out₁⟩, hdata, hrun⟩ := Option.bind_eq_some_iff.mp hrun
  obtain ⟨⟨_, w₄, out₂⟩, hindex, hrun⟩ := Option.bind_eq_some_iff.mp hrun
  obtain ⟨⟨_, w₅, out₃⟩, hmaps, hrun⟩ := Option.map_eq_some_iff.mp hrun
  obtain ⟨hbefore, hafter⟩ := Prod.mk.inj hrun
  have hnew := eq_ok_of_toOption hnew
  have hfinish := eq_ok_of_outcome? hfinish
  have hdata := eq_ok_of_outcome? hdata
  have hindex := eq_ok_of_outcome? hindex
  have hmaps := eq_ok_of_outcome? hmaps
  dsimp only at hbefore hafter hfinish hdata hindex hmaps
  obtain ⟨data, hpages, hdrop, hall⟩ := estimate_is_written hnew rfl hfinish hdata
  obtain ⟨index, maps, hentries, hrecords, hsum⟩ := hall hindex hmaps
  have hout₁ := hpages.size_eq
  have hout₂ := hentries.size_eq
  have hout₃ := hrecords.size_eq
  have hempty : (OutputFile.disk #[] 0 #[]).size = 0 := rfl
  exact ⟨_, w₀, _, w₂, w₃, w₄, w₅, out₁, out₂, out₃, hnew, rfl, hfinish, hbefore, hdata, hafter,
    by omega, hindex, hmaps, by omega⟩

end Columnar
