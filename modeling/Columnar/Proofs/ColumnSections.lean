import Columnar.Proofs.ColumnCells
import Columnar.Proofs.StoredSections

/-! # The sections of a column

A finished column appends its pages, its ordinal index and its zone maps to the file. What is said
about them in the footer stays true however the file goes on. -/

namespace Columnar

theorem forall₂_comp {α β γ : Type} {R : α → β → Prop} {S : β → γ → Prop} {T : α → γ → Prop}
    (h : ∀ a b c, R a b → S b c → T a c) {xs : List α} {ys : List β} {zs : List γ}
    (hxy : List.Forall₂ R xs ys) (hyz : List.Forall₂ S ys zs) : List.Forall₂ T xs zs := by
  induction hxy generalizing zs with
  | nil =>
      cases hyz
      exact .nil
  | cons hab _ ih =>
      cases hyz with
      | cons hbc hyz => exact .cons (h _ _ _ hab hbc) (ih hyz)

namespace ColumnWriter

/-- A step that succeeds appends to the file. -/
def Appends (step : Output Unit) : Prop :=
  ∀ w file s, step (w, .memory file) = .ok () s →
    ∃ more : Bytes, s.2 = .memory (file ++ more)

/-- From a state that meets `P` a step leads to one that meets `Q`, as long as positions in the file
are words. -/
def Leads (P : ColumnWriter → Array UInt8 → Prop) (step : Output Unit)
    (Q : ColumnWriter → Array UInt8 → Prop) : Prop :=
  ∀ w file w' file', P w file → step (w, .memory file) = .ok () (w', .memory file') →
    file'.size < 2 ^ 64 → Q w' file'

variable {w : ColumnWriter} {file : Array UInt8} {out : OutputFile} {s : ColumnWriter × OutputFile}

/-- A section is appended where its pointer says that the file ended. -/
theorem writeSection_eq_ok {bytes : Bytes} {p : Pointer}
    (h : writeSection bytes (w, out) = .ok p s) :
    Pointer.new out.size bytes.length = .ok p ∧ s = (w, out.append bytes) := by
  unfold writeSection at h
  cases hp : Pointer.new out.size bytes.length with
  | error e => simp only [hp] at h; cases h
  | ok pointer =>
      simp only [hp] at h
      cases h
      exact ⟨rfl, rfl⟩

theorem writePages_cons_eq_ok {page : ClosedPage} {pages : List ClosedPage}
    (h : writePages (page :: pages) (w, out) = .ok () s) :
    ∃ p, Pointer.new out.size page.bytes.length = .ok p ∧
      writePages pages ({ w with
        index := w.index.push ⟨page.firstOrdinal, p⟩
        entry := { w.entry with pages := w.entry.pages.push p } }, out.append page.bytes) =
          .ok () s := by
  simp only [writePages] at h
  cases hp : writeSection page.bytes (w, out) with
  | error e t => rw [hp] at h; cases h
  | ok p t =>
      obtain ⟨hpointer, rfl⟩ := writeSection_eq_ok hp
      rw [hp] at h
      exact ⟨p, hpointer, h⟩

/-- Closed pages are written in order, each with an entry in the index and in the footer. -/
theorem writePages_eq_ok {pages : List ClosedPage}
    (h : writePages pages (w, .memory file) = .ok () s) :
    ∃ (entries : List PageEntry) (more : Bytes), s.2 = .memory (file ++ more) ∧
      s.1 = { w with
        index := (w.index.toList ++ entries).toArray
        entry := { w.entry with
          pages := (w.entry.pages.toList ++ entries.map (·.pointer)).toArray } } ∧
      ((file ++ more).size < 2 ^ 64 → List.Forall₂ (fun e (page : ClosedPage) =>
        e.firstOrdinal = page.firstOrdinal ∧ Stored (file ++ more) e.pointer page.bytes)
          entries pages) := by
  induction pages generalizing w file with
  | nil =>
      cases h
      exact ⟨[], [], by simp, by simp, fun _ => .nil⟩
  | cons page pages ih =>
      obtain ⟨pointer, hpointer, h⟩ := writePages_cons_eq_ok h
      obtain ⟨entries, more, hfile, hw, hall⟩ := ih h
      have hjoin := appendList_append file page.bytes more
      rw [hjoin] at hfile hall
      refine ⟨⟨page.firstOrdinal, pointer⟩ :: entries, page.bytes ++ more, hfile, ?_, ?_⟩
      · rw [hw]
        simp
      · intro hsize
        have hfirst : file.size < 2 ^ 64 := size_lt_of_append hsize
        exact .cons ⟨rfl, hjoin ▸ (stored_appended hpointer hfirst).append more⟩ (hall hsize)

theorem requireFinished_eq_ok {step : String} (h : requireFinished step (w, out) = .ok () s) :
    w.finished = true ∧ s = (w, out) := by
  obtain ⟨_, s₁, hget, h⟩ := bind_eq_ok h
  cases hget
  cases hf : w.finished with
  | false => simp only [hf] at h; cases h
  | true =>
      simp only [hf] at h
      cases h
      exact ⟨rfl, rfl⟩

/-- Each step that writes asks first whether the column is finished, and then for its state. -/
theorem finished_of_eq_ok {α : Type} {step : String} {f : ColumnWriter × OutputFile → Output α}
    {a : α} (h : (requireFinished step >>= fun _ => get >>= f) (w, out) = .ok a s) :
    w.finished = true ∧ f (w, out) (w, out) = .ok a s := by
  obtain ⟨_, s₁, hrequire, hrun⟩ := bind_eq_ok h
  obtain ⟨hfinished, rfl⟩ := requireFinished_eq_ok hrequire
  obtain ⟨_, s₂, hget, hrun⟩ := bind_eq_ok hrun
  cases hget
  exact ⟨hfinished, hrun⟩

theorem writeData_eq_ok (h : writeData (w, out) = .ok () s) :
    ∃ w₁ out₁, w.finished = true ∧
      writePages w.closed.toList ({ w with closed := #[] }, out) = .ok () (w₁, out₁) ∧
        s = ({ w₁ with closedSize := 0 }, out₁) := by
  obtain ⟨hfinished, hrun⟩ := finished_of_eq_ok h
  obtain ⟨_, s₃, hset, hrun⟩ := bind_eq_ok hrun
  cases hset
  obtain ⟨_, ⟨w₁, out₁⟩, hwrite, hset⟩ := bind_eq_ok hrun
  cases hset
  exact ⟨w₁, out₁, hfinished, hwrite, rfl⟩

theorem writeOrdinalIndex_eq_ok (h : writeOrdinalIndex (w, out) = .ok () s) :
    ∃ p, w.finished = true ∧
      Pointer.new out.size (OrdinalIndex.encode w.index.toList).length = .ok p ∧
      s = ({ w with entry := { w.entry with ordinalIndex := some p } },
        out.append (OrdinalIndex.encode w.index.toList)) := by
  obtain ⟨hfinished, hrun⟩ := finished_of_eq_ok h
  obtain ⟨p, s₃, hwrite, hset⟩ := bind_eq_ok hrun
  obtain ⟨hpointer, rfl⟩ := writeSection_eq_ok hwrite
  cases hset
  exact ⟨p, hfinished, hpointer, rfl⟩

theorem writeZoneMaps_eq_ok (h : writeZoneMaps (w, out) = .ok () s) :
    w.finished = true ∧
      ((w.zoneMaps = none ∧ s = (w, out)) ∨
        ∃ draft p, w.zoneMaps = some draft ∧
          Pointer.new out.size draft.encode.length = .ok p ∧
          s = ({ w with entry := { w.entry with
              zoneMaps := some p, segmentZoneMap := some draft.segment } },
            out.append draft.encode)) := by
  obtain ⟨hfinished, hrun⟩ := finished_of_eq_ok h
  refine ⟨hfinished, ?_⟩
  rcases Option.eq_none_or_eq_some w.zoneMaps with hnone | ⟨draft, hdraft⟩
  · simp only [hnone] at hrun
    cases hrun
    exact .inl ⟨hnone, rfl⟩
  · simp only [hdraft] at hrun
    obtain ⟨p, s₃, hwrite, hset⟩ := bind_eq_ok hrun
    obtain ⟨hpointer, rfl⟩ := writeSection_eq_ok hwrite
    cases hset
    exact .inr ⟨draft, p, hdraft, hpointer, rfl⟩

theorem appends_writeData : Appends writeData := by
  intro w file s hrun
  obtain ⟨w₁, out₁, -, hwrite, rfl⟩ := writeData_eq_ok hrun
  obtain ⟨-, more, hfile, -⟩ := writePages_eq_ok hwrite
  exact ⟨more, hfile⟩

theorem appends_writeOrdinalIndex : Appends writeOrdinalIndex := by
  intro w file s hrun
  obtain ⟨p, -, -, rfl⟩ := writeOrdinalIndex_eq_ok hrun
  exact ⟨_, rfl⟩

theorem appends_writeZoneMaps : Appends writeZoneMaps := by
  intro w file s hrun
  obtain ⟨-, ⟨-, rfl⟩ | ⟨draft, p, -, -, rfl⟩⟩ := writeZoneMaps_eq_ok hrun
  · exact ⟨[], by simp⟩
  · exact ⟨_, rfl⟩

end ColumnWriter

/-! ## What lies in the file -/

variable [Lz4.Compressor]

namespace ColumnPlan

variable (plan : ColumnPlan)

/-- The entry lists the page of the run, which lies in the file. -/
def Lists (file : Array UInt8) (e : PageEntry) (run : ℕ × List Cell) : Prop :=
  e.firstOrdinal = UInt64.ofNat run.1 ∧
    ∃ page, Page.encode plan.format run.2 = .ok page ∧ Stored file e.pointer page

/-- What the footer says of a column that took `cells`, apart from where its parts lie. -/
def Heads (cells : List Cell) (m : ColumnMeta) : Prop :=
  m = { plan.entry with
    numRows := UInt64.ofNat cells.length
    pages := m.pages
    ordinalIndex := m.ordinalIndex
    zoneMaps := m.zoneMaps
    segmentZoneMap := m.segmentZoneMap }

/-- The pages of the column are written. -/
structure Flushed (cells : List Cell) (w : ColumnWriter) (file : Array UInt8) : Prop where
  finished : w.finished = true
  entry : plan.Heads cells w.entry
  drafts : w.zoneMaps = plan.zoneMaps (plan.runsOf cells).close
  pages : w.entry.pages = w.index.map (·.pointer)
  index : List.Forall₂ (plan.Lists file) w.index.toList (Page.numbered 0 (plan.runs cells))
  noZoneMaps : w.entry.zoneMaps = none ∧ w.entry.segmentZoneMap = none

/-- So is the ordinal index. -/
structure Indexed (cells : List Cell) (w : ColumnWriter) (file : Array UInt8) : Prop
    extends plan.Flushed cells w file where
  ordinalIndex : ∃ p, w.entry.ordinalIndex = some p ∧
    Stored file p (OrdinalIndex.encode w.index.toList)

/-- All parts of the column lie in the file where its entry in the footer says. -/
structure Written (cells : List Cell) (file : Array UInt8) (m : ColumnMeta) : Prop where
  entry : plan.Heads cells m
  index : ∃ entries p, m.pages = (entries.map PageEntry.pointer).toArray ∧
    List.Forall₂ (plan.Lists file) entries (Page.numbered 0 (plan.runs cells)) ∧
    m.ordinalIndex = some p ∧ Stored file p (OrdinalIndex.encode entries)
  noZoneMaps : plan.zoneMaps (plan.runsOf cells).close = none →
    m.zoneMaps = none ∧ m.segmentZoneMap = none
  zoneMaps : ∀ draft, plan.zoneMaps (plan.runsOf cells).close = some draft →
    m.segmentZoneMap = some draft.segment ∧ ∃ p, m.zoneMaps = some p ∧ Stored file p draft.encode

variable {plan} {cells : List Cell} {w : ColumnWriter} {file : Array UInt8}

theorem Lists.append {e : PageEntry} {run : ℕ × List Cell} (h : plan.Lists file e run)
    (more : Bytes) : plan.Lists (file ++ more) e run := by
  obtain ⟨hfirst, page, hpage, hstored⟩ := h
  exact ⟨hfirst, page, hpage, hstored.append more⟩

theorem Flushed.append (h : plan.Flushed cells w file) (more : Bytes) :
    plan.Flushed cells w (file ++ more) :=
  { h with index := h.index.imp fun _ _ hlists => hlists.append more }

theorem Indexed.append (h : plan.Indexed cells w file) (more : Bytes) :
    plan.Indexed cells w (file ++ more) := by
  obtain ⟨p, hp, hstored⟩ := h.ordinalIndex
  exact ⟨h.toFlushed.append more, p, hp, hstored.append more⟩

theorem Written.append {m : ColumnMeta} (h : plan.Written cells file m) (more : Bytes) :
    plan.Written cells (file ++ more) m := by
  obtain ⟨entries, p, hpages, hlists, hp, hstored⟩ := h.index
  refine ⟨h.entry, ⟨entries, p, hpages, hlists.imp fun _ _ hl => hl.append more, hp,
    hstored.append more⟩, h.noZoneMaps, fun draft hdraft => ?_⟩
  obtain ⟨hsegment, q, hq, hmaps⟩ := h.zoneMaps draft hdraft
  exact ⟨hsegment, q, hq, hmaps.append more⟩

/-! ## Writing the sections -/

theorem leads_writeData (plan : ColumnPlan) (cells : List Cell) :
    ColumnWriter.Leads (fun w _ => plan.Holds (plan.runsOf cells).close w) ColumnWriter.writeData
      (plan.Flushed cells) := by
  intro w file w' file' h hrun hsize
  obtain ⟨w₁, out₁, hfinished, hwrite, hs⟩ := ColumnWriter.writeData_eq_ok hrun
  cases hs
  obtain ⟨entries, more, hfile, hw, hall⟩ := ColumnWriter.writePages_eq_ok hwrite
  obtain rfl : file' = file ++ more := by simpa using hfile
  have hcells : (plan.runsOf cells).close.cells = cells :=
    (Page.Runs.cells_close _).trans (Page.cells_runsOf _ _ _)
  have hentry := h.entry
  rw [hcells] at hentry
  have hlists : List.Forall₂ (plan.Lists (file ++ more)) entries
      (Page.numbered 0 (plan.runs cells)) := by
    refine forall₂_comp (fun e page run he hpage => ?_) (hall hsize) h.closed
    exact ⟨he.1.trans hpage.1, page.bytes, hpage.2, he.2⟩
  change w₁ = _ at hw
  rw [hw]
  refine ⟨hfinished, ?_, h.zoneMaps, ?_, ?_, ?_⟩
  · simp only [Heads, hentry]
  · simp [h.index, hentry, entry, ColumnMeta.new]
  · simpa [h.index] using hlists
  · simp [hentry, entry, ColumnMeta.new]

theorem leads_writeOrdinalIndex (plan : ColumnPlan) (cells : List Cell) :
    ColumnWriter.Leads (plan.Flushed cells) ColumnWriter.writeOrdinalIndex
      (plan.Indexed cells) := by
  intro w file w' file' h hrun hsize
  obtain ⟨p, -, hpointer, hs⟩ := ColumnWriter.writeOrdinalIndex_eq_ok hrun
  cases hs
  have happended := h.append (OrdinalIndex.encode w.index.toList)
  have hentry := h.entry
  refine ⟨⟨h.finished, ?_, h.drafts, h.pages, happended.index, h.noZoneMaps⟩,
    p, rfl, stored_appended hpointer (size_lt_of_append hsize)⟩
  simp only [Heads] at hentry ⊢
  rw [hentry]

theorem leads_writeZoneMaps (plan : ColumnPlan) (cells : List Cell) :
    ColumnWriter.Leads (plan.Indexed cells) ColumnWriter.writeZoneMaps
      (fun w file => plan.Written cells file w.entry) := by
  intro w file w' file' h hrun hsize
  obtain ⟨p, hp, hindex⟩ := h.ordinalIndex
  have hpages : w.entry.pages = (w.index.toList.map PageEntry.pointer).toArray := by
    rw [h.pages, ← Array.toList_map, Array.toArray_toList]
  obtain ⟨-, ⟨hnone, hs⟩ | ⟨draft, q, hdraft, hpointer, hs⟩⟩ :=
    ColumnWriter.writeZoneMaps_eq_ok hrun
  · cases hs
    rw [h.drafts] at hnone
    refine ⟨h.entry, ⟨_, p, hpages, h.index, hp, hindex⟩, fun _ => h.noZoneMaps,
      fun draft hdraft => ?_⟩
    rw [hnone] at hdraft
    cases hdraft
  · cases hs
    rw [h.drafts] at hdraft
    refine ⟨?_, ⟨_, p, hpages, (h.append _).index, hp, hindex.append _⟩, fun hnone => ?_,
      fun draft' hdraft' => ?_⟩
    · have hentry := h.entry
      simp only [Heads] at hentry ⊢
      rw [hentry]
    · rw [hdraft] at hnone
      cases hnone
    · obtain rfl : draft = draft' := by simpa [hdraft] using hdraft'
      exact ⟨rfl, q, rfl, stored_appended hpointer (size_lt_of_append hsize)⟩

end ColumnPlan

/-! ## The column as a whole -/

namespace ColumnWriter

/-- A column is closed and its sections are written in order. Others may append to the file in
between and behind. -/
inductive Writes : ColumnWriter → Array UInt8 → ColumnWriter → Array UInt8 → Prop where
  | sections {w w₁ w₂ w₃ w₄ : ColumnWriter} {file file₁ file₂ file₃ : Array UInt8}
      (more₁ more₂ more₃ : Bytes) (finish : ColumnWriter.finish w = .ok () w₁)
      (data : writeData (w₁, .memory file) = .ok () (w₂, .memory file₁))
      (index : writeOrdinalIndex (w₂, .memory (file₁ ++ more₁)) = .ok () (w₃, .memory file₂))
      (zoneMaps : writeZoneMaps (w₃, .memory (file₂ ++ more₂)) = .ok () (w₄, .memory file₃)) :
      Writes w file w₄ (file₃ ++ more₃)

theorem writes_of_writeAll {w w' : ColumnWriter} {file file' : Array UInt8}
    (h : writeAll (w, .memory file) = .ok () (w', .memory file')) : Writes w file w' file' := by
  obtain ⟨_, s₁, hget, hrun⟩ := bind_eq_ok h
  cases hget
  cases hfinish : finish w with
  | error e w₁ =>
      simp only [hfinish] at hrun
      obtain ⟨_, s₂, hset, hthrow⟩ := bind_eq_ok hrun
      cases hthrow
  | ok _ w₁ =>
      simp only [hfinish] at hrun
      obtain ⟨_, s₂, hset, hrun⟩ := bind_eq_ok hrun
      cases hset
      obtain ⟨_, ⟨w₂, out₂⟩, hdata, hrun⟩ := bind_eq_ok hrun
      obtain ⟨_, ⟨w₃, out₃⟩, hindex, hmaps⟩ := bind_eq_ok hrun
      obtain ⟨more, rfl⟩ := appends_writeData _ _ _ hdata
      obtain ⟨more', rfl⟩ := appends_writeOrdinalIndex _ _ _ hindex
      have hwrites := Writes.sections [] [] [] hfinish hdata (by simpa using hindex)
        (by simpa using hmaps)
      simpa using hwrites

/-- A column with these cells, before and after it took them and when its sections are written, and
the file then, if all goes well. -/
def written? (id : UInt32) (c : ColumnSchema) (o : ColumnOptions) (initial : Array UInt8)
    (cells : List Cell) :
    Option (ColumnWriter × ColumnWriter × ColumnWriter × Array UInt8) := do
  let w₀ ← (new id c o).toOption
  let s₁ ← outcome? (appendAll cells w₀)
  let s₂ ← outcome? (writeAll (s₁.2, .memory initial))
  let file ← s₂.2.2.bytes?
  return (w₀, s₁.2, s₂.2.1, file)

/-- A run that is carried out shows that there is one. -/
theorem exists_writes {id : UInt32} {c : ColumnSchema} {o : ColumnOptions}
    {initial : Array UInt8} {cells : List Cell}
    {P : ColumnWriter × ColumnWriter × ColumnWriter × Array UInt8 → Prop} [DecidablePred P]
    (h : (written? id c o initial cells).any fun run => P run) :
    ∃ w₀ w₁ w₂ file, new id c o = .ok w₀ ∧ appendAll cells w₀ = .ok () w₁ ∧
      Writes w₁ initial w₂ file ∧ P (w₀, w₁, w₂, file) := by
  obtain ⟨run, hrun, hfile⟩ := (Option.any_eq_true _ _).mp h
  obtain ⟨w₀, hnew, hrun⟩ := Option.bind_eq_some_iff.mp hrun
  obtain ⟨⟨_, w₁⟩, hcells, hrun⟩ := Option.bind_eq_some_iff.mp hrun
  obtain ⟨⟨_, w₂, out⟩, hwrite, hrun⟩ := Option.bind_eq_some_iff.mp hrun
  obtain ⟨file, hout, hrun⟩ := Option.bind_eq_some_iff.mp hrun
  cases hrun
  cases OutputFile.eq_memory_of_bytes? hout
  exact ⟨w₀, w₁, w₂, file, eq_ok_of_toOption hnew, eq_ok_of_outcome? hcells,
    writes_of_writeAll (eq_ok_of_outcome? hwrite), of_decide_eq_true hfile⟩

end ColumnWriter

namespace ColumnPlan

variable {plan : ColumnPlan} {cells : List Cell} {w w' : ColumnWriter} {file file' : Array UInt8}

/-- A column that was written lies in the file. -/
theorem Holds.writes (h : plan.Holds (plan.runsOf cells) w)
    (hwrites : ColumnWriter.Writes w file w' file') (hsize : file'.size < 2 ^ 64) :
    plan.Written cells file' w'.entry := by
  obtain ⟨more₁, more₂, more₃, hfinish, hdata, hindex, hmaps⟩ := hwrites
  obtain ⟨m₂, hm₂⟩ := ColumnWriter.appends_writeOrdinalIndex _ _ _ hindex
  obtain ⟨m₃, hm₃⟩ := ColumnWriter.appends_writeZoneMaps _ _ _ hmaps
  cases hm₂
  cases hm₃
  simp only [Lz4.size_appendList] at hsize
  have hflushed := plan.leads_writeData cells _ _ _ _ (h.finish hfinish).1 hdata (by omega)
  have hindexed := plan.leads_writeOrdinalIndex cells _ _ _ _ (hflushed.append more₁) hindex
    (by simp only [Lz4.size_appendList]; omega)
  exact (plan.leads_writeZoneMaps cells _ _ _ _ (hindexed.append more₂) hmaps
    (by simp only [Lz4.size_appendList]; omega)).append more₃

end ColumnPlan

end Columnar
