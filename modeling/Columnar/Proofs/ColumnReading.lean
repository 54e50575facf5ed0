import Columnar.Column
import Columnar.Proofs.ColumnSections
import Columnar.Proofs.PageLookup
import Columnar.Proofs.ZoneMapBounds

/-! # Opening a column that was written

A column whose parts lie in the file can be opened. Its ordinal index cuts the rows into the runs of
the pages, its zone maps are those of the runs, and each page reads as its run. -/

namespace Columnar

theorem forall₂_getElem? {α β : Type} {R : α → β → Prop} {xs : List α} {ys : List β}
    (h : List.Forall₂ R xs ys) {k : ℕ} {y : β} (hy : ys[k]? = some y) :
    ∃ x, xs[k]? = some x ∧ R x y := by
  induction h generalizing k with
  | nil => simp at hy
  | cons hxy _ ih =>
      cases k with
      | zero =>
          simp only [List.getElem?_cons_zero, Option.some.injEq] at hy
          exact ⟨_, rfl, hy ▸ hxy⟩
      | succ k => simpa using ih (by simpa using hy)

theorem length_flatten_le {α : Type} {n : ℕ} {xs : List (List α)} (h : ∀ x ∈ xs, x.length ≤ n) :
    xs.flatten.length ≤ xs.length * n := by
  induction xs with
  | nil => simp
  | cons x xs ih =>
      have hx := h x (by simp)
      have hxs := ih fun y hy => h y (by simp [hy])
      simp only [List.flatten_cons, List.length_append, List.length_cons, Nat.add_mul, Nat.one_mul]
      omega

theorem forM_eq_ok {α : Type} {f : α → Except Error Unit} {xs : List α}
    (h : ∀ x ∈ xs, f x = .ok ()) : xs.forM f = .ok () := by
  induction xs with
  | nil => rfl
  | cons x xs ih =>
      change (f x >>= fun _ => xs.forM f) = _
      rw [h x (by simp)]
      exact ih fun y hy => h y (by simp [hy])

namespace Page

/-- Runs that are not empty begin behind each other, before the end. -/
theorem numbered_ordered {runs : List (List Cell)} (h : ∀ run ∈ runs, run ≠ []) :
    ∀ first, (numbered first runs).Pairwise (·.1 < ·.1) ∧
      ∀ n ∈ numbered first runs, first ≤ n.1 ∧ n.1 < first + runs.flatten.length := by
  induction runs with
  | nil =>
      intro first
      simp [numbered]
  | cons run runs ih =>
      intro first
      obtain ⟨hasc, hbounds⟩ := ih (fun r hr => h r (by simp [hr])) (first + run.length)
      have hpos : 0 < run.length := List.length_pos_iff.mpr (h run (by simp))
      refine ⟨List.pairwise_cons.mpr ⟨fun n hn => ?_, hasc⟩, fun n hn => ?_⟩
      · have hn := (hbounds n hn).1
        simp only
        omega
      · simp only [List.flatten_cons, List.length_append]
        rcases List.mem_cons.mp hn with rfl | hn
        · simp only
          omega
        · have hn := hbounds n hn
          omega

end Page

namespace ColumnPlan

variable {plan : ColumnPlan} {cells : List Cell} {file : Array UInt8} {m : ColumnMeta}

/-! ## Runs -/

theorem mem_cells_of_mem_run {run : List Cell} (hrun : run ∈ plan.runs cells) {c : Cell}
    (hc : c ∈ run) : c ∈ cells := by
  rw [← flatten_runs plan cells]
  exact List.mem_flatten.mpr ⟨run, hrun, hc⟩

/-- The cell of a row stands in its run. -/
theorem getElem?_run {k : ℕ} {run : List Cell} (hk : (plan.runs cells)[k]? = some run) {j : ℕ}
    (hfirst : ((plan.runs cells).take k).flatten.length ≤ j)
    (hstop : j < ((plan.runs cells).take k).flatten.length + run.length) :
    run[j - ((plan.runs cells).take k).flatten.length]? = cells[j]? := by
  have hslice := Page.slice_flatten hk
  rw [flatten_runs] at hslice
  rw [← hslice, List.getElem?_take_of_lt (by omega), List.getElem?_drop,
    Nat.add_sub_cancel' hfirst]

/-- A page ends where the next one begins, or with the rows. -/
theorem stop_eq {k : ℕ} {run : List Cell} (hk : (plan.runs cells)[k]? = some run) :
    ((plan.runs cells)[k + 1]?.map fun _ =>
        ((plan.runs cells).take (k + 1)).flatten.length).getD cells.length =
      ((plan.runs cells).take k).flatten.length + run.length := by
  have hnext : ((plan.runs cells).take (k + 1)).flatten.length =
      ((plan.runs cells).take k).flatten.length + run.length := by
    rw [List.take_add_one, hk]
    simp
  cases hk' : (plan.runs cells)[k + 1]? with
  | some run' => simpa using hnext
  | none =>
      have hend := List.take_of_length_le (List.getElem?_eq_none_iff.mp hk')
      rw [hend, flatten_runs] at hnext
      simpa using hnext

theorem runs_eq_nil_iff : plan.runs cells = [] ↔ cells = [] := by
  have hcells := flatten_runs plan cells
  constructor
  · intro hruns
    rw [← hcells, hruns]
    rfl
  · intro hnil
    rw [hnil, List.flatten_eq_nil_iff] at hcells
    rw [hnil]
    exact List.eq_nil_iff_forall_not_mem.mpr fun run hrun => (mem_runs hrun).1 (hcells run hrun)

/-- The bodies of the pages fit the compressed form, if they are compressed. -/
def Fits (plan : ColumnPlan) (cells : List Cell) : Prop :=
  plan.format.compression = .lz4 → ∀ run ∈ plan.runs cells, ∀ bytes,
    Page.body plan.format.field plan.format.encoding run = .ok bytes → bytes.length < 2 ^ 32

/-! ## What is gathered for the zone maps -/

/-- The zone maps of all pages, if the column has any. -/
def pageMaps (plan : ColumnPlan) (cells : List Cell) : Option (List ZoneMap) :=
  if plan.options.needZoneMap then some ((plan.runs cells).map plan.zoneMap) else none

theorem zoneMaps_eq_some {draft : ZoneMapDraft}
    (h : plan.zoneMaps (plan.runsOf cells).close = some draft) :
    plan.options.needZoneMap = true ∧ draft.segment = plan.zoneMap cells ∧
      draft.encode = Bytes.little 4 ((plan.runs cells).map plan.zoneMap).length ++
        ((plan.runs cells).map plan.zoneMap).flatMap ZoneMap.encodeRecord := by
  have hcells : (plan.runsOf cells).close.cells = cells :=
    (Page.Runs.cells_close _).trans (Page.cells_runsOf _ _ _)
  rw [zoneMaps] at h
  split at h
  next hneed =>
    cases h
    refine ⟨hneed, ?_, ?_⟩
    · rw [ZoneMapDraft.segment, hcells]
      rfl
    · simp [ZoneMapDraft.encode, ZoneMapDraft.numPages, runs, List.flatMap_def, Function.comp_def]
  next => cases h

theorem needZoneMap_of_zoneMaps_eq_none {r : Page.Runs} (h : plan.zoneMaps r = none) :
    ¬ plan.options.needZoneMap = true := by
  intro hneed
  rw [zoneMaps, if_pos hneed] at h
  cases h

/-- The zone map of cells that the column takes is one of its field. -/
theorem conforms_zoneMap (haccepts : ∀ c ∈ cells, plan.Accepts c) :
    (plan.zoneMap cells).Conforms plan.format.field := by
  obtain ⟨hdescribes, hattained⟩ := ZoneMap.describes_ofCells cells
  exact ZoneMap.conforms_truncated hdescribes hattained
    (fun v hv => (haccepts _ hv).admits.kind_eq) _

variable [Lz4.Compressor]

/-- An opened column that shows the pages of the cells. -/
structure Opened (plan : ColumnPlan) (cells : List Cell) (file : Array UInt8)
    (options : ReadOptions) (col : Column) : Prop where
  numRows : col.numRows = cells.length
  format : col.format = plan.format
  file_eq : col.file = .memory file
  verify : col.verify = options.verifyChecksums
  rows : col.index.numRows = cells.length
  rows_lt : cells.length < 2 ^ 64
  index : List.Forall₂ (plan.Lists file) col.index.entries.toList
    (Page.numbered 0 (plan.runs cells))
  zoneMaps : col.zoneMaps = plan.pageMaps cells

/-! ## The ordinal index -/

/-- There are too few pages for more rows than a word counts. -/
theorem rows_lt_of_lists {entries : List PageEntry} {p : Pointer}
    (hlists : List.Forall₂ (plan.Lists file) entries (Page.numbered 0 (plan.runs cells)))
    (hstored : Stored file p (OrdinalIndex.encode entries)) :
    entries.length < 2 ^ 32 ∧ cells.length < 2 ^ 64 := by
  have hlen := hstored.length_lt
  have hentries := hlists.length_eq
  rw [Page.length_numbered] at hentries
  have hsize : (OrdinalIndex.encode entries).length = 4 + entries.length * 20 := by
    simp [OrdinalIndex.encode, List.length_flatMap, List.map_const', PageEntry.size]
  have hrows : (plan.runs cells).flatten.length ≤ (plan.runs cells).length * 2 ^ 20 :=
    length_flatten_le fun run hrun => (mem_runs hrun).2.trans plan.rows_le
  rw [flatten_runs] at hrows
  omega

theorem firsts_eq {entries : List PageEntry}
    (hlists : List.Forall₂ (plan.Lists file) entries (Page.numbered 0 (plan.runs cells)))
    (hrows : cells.length < 2 ^ 64) :
    entries.map (·.firstOrdinal.toNat) = (Page.numbered 0 (plan.runs cells)).map Prod.fst := by
  have hmod : entries.map (·.firstOrdinal.toNat) =
      (Page.numbered 0 (plan.runs cells)).map fun n => n.1 % 2 ^ 64 := by
    rw [← List.forall₂_eq_eq_eq, List.forall₂_map_left_iff, List.forall₂_map_right_iff]
    exact hlists.imp fun e n h => by rw [h.1, UInt64.toNat_ofNat']
  rw [hmod]
  refine List.map_congr_left fun n hn => Nat.mod_eq_of_lt ?_
  have hbounds := (Page.numbered_ordered (fun run hrun => (mem_runs hrun).1) 0).2 n hn
  rw [flatten_runs] at hbounds
  omega

/-- The rows at which pages begin. -/
theorem getElem?_firsts {entries : List PageEntry}
    (hlists : List.Forall₂ (plan.Lists file) entries (Page.numbered 0 (plan.runs cells)))
    (hrows : cells.length < 2 ^ 64) (k : ℕ) :
    entries[k]?.map (·.firstOrdinal.toNat) =
      (plan.runs cells)[k]?.map fun _ => ((plan.runs cells).take k).flatten.length := by
  have hfirsts := congrArg (·[k]?) (firsts_eq hlists hrows)
  simp only [List.getElem?_map, Page.getElem?_numbered, Nat.zero_add, Option.map_map] at hfirsts
  exact hfirsts

theorem ordered_of_lists {entries : List PageEntry}
    (hlists : List.Forall₂ (plan.Lists file) entries (Page.numbered 0 (plan.runs cells)))
    (hrows : cells.length < 2 ^ 64) : OrdinalIndex.Ordered cells.length entries := by
  have hfirsts := firsts_eq hlists hrows
  have hlen := hlists.length_eq
  rw [Page.length_numbered] at hlen
  have hne : ∀ run ∈ plan.runs cells, run ≠ [] := fun run hrun => (mem_runs hrun).1
  obtain ⟨hasc, hbounds⟩ := Page.numbered_ordered hne 0
  rw [flatten_runs] at hbounds
  refine ⟨?_, ?_, ?_, ?_⟩
  · intro e he
    obtain ⟨es, rfl⟩ := List.head?_eq_some_iff.mp he
    cases hruns : plan.runs cells with
    | nil => simp [hruns] at hlen
    | cons run runs =>
        rw [hruns] at hfirsts
        exact (List.cons.inj hfirsts).1
  · have hpairs : ((Page.numbered 0 (plan.runs cells)).map Prod.fst).Pairwise (· < ·) :=
      List.pairwise_map.mpr hasc
    rw [← hfirsts] at hpairs
    exact List.pairwise_map.mp hpairs
  · intro e he
    have hmem : e.firstOrdinal.toNat ∈ (Page.numbered 0 (plan.runs cells)).map Prod.fst :=
      hfirsts ▸ List.mem_map.mpr ⟨e, he, rfl⟩
    obtain ⟨n, hn, heq⟩ := List.mem_map.mp hmem
    have hn := hbounds n hn
    omega
  · rw [List.length_eq_zero_iff, ← @runs_eq_nil_iff plan cells, ← List.length_eq_zero_iff, hlen,
      List.length_eq_zero_iff]

/-! ## The zone maps -/

/-- The zone maps of the pages come back from the file. -/
theorem readZoneMaps_eq_ok {entries : List PageEntry} {draft : ZoneMapDraft} {p : Pointer}
    (haccepts : ∀ c ∈ cells, plan.Accepts c) (hheads : plan.Heads cells m)
    (hlists : List.Forall₂ (plan.Lists file) entries (Page.numbered 0 (plan.runs cells)))
    (hcount : entries.length < 2 ^ 32)
    (hdraft : plan.zoneMaps (plan.runsOf cells).close = some draft)
    (hstored : Stored file p draft.encode) :
    Column.readZoneMaps m entries.length (.memory file) p =
      .ok ((plan.runs cells).map plan.zoneMap) := by
  obtain ⟨-, -, hencode⟩ := zoneMaps_eq_some hdraft
  have hsize := hstored.length_lt
  have hlen : ((plan.runs cells).map plan.zoneMap).length = entries.length := by
    rw [List.length_map, hlists.length_eq, Page.length_numbered]
  have hfield : m.field = plan.format.field := by
    rw [plan.field_eq, hheads]
    rfl
  have hdecode : ZoneMap.decodeStream m.field draft.encode =
      .ok ((plan.runs cells).map plan.zoneMap) [] := by
    rw [hencode, hfield]
    refine ZoneMap.decodeStream_eq_ok (hlen ▸ hcount) fun z hz => ?_
    have hshort : z.encode.length < 2 ^ 64 := by
      have hrecord : z.encodeRecord.length ≤ _ := Page.length_le_length_flatMap hz
      simp only [hencode, ZoneMap.encodeRecord, List.length_append] at hsize hrecord
      omega
    obtain ⟨run, hrun, rfl⟩ := List.mem_map.mp hz
    have hconforms := conforms_zoneMap fun c hc => haccepts c (mem_cells_of_mem_run hrun hc)
    exact ⟨hconforms.storable hshort, hshort⟩
  rw [Column.readZoneMaps]
  refine bind_of_eq_ok hstored.read ?_
  simp only [hdecode]
  exact if_neg (not_not.mpr hlen)

/-! ## Opening -/

theorem Written.pagesInside (h : plan.Written cells file m) :
    m.pages.toList.forM (Column.requireInside m.id .dataPage file.size) = .ok () := by
  obtain ⟨entries, p, hpages, hlists, -⟩ := h.index
  refine forM_eq_ok fun q hq => ?_
  rw [hpages] at hq
  obtain ⟨e, he, rfl⟩ := List.mem_map.mp hq
  obtain ⟨k, hk⟩ := List.mem_iff_getElem?.mp he
  obtain ⟨n, -, -, page, -, hstored⟩ := forall₂_getElem? hlists.flip hk
  rw [Column.requireInside, if_pos hstored.within_size]

theorem Written.zoneMapsInside (h : plan.Written cells file m) :
    m.zoneMaps.toList.forM (Column.requireInside m.id .zoneMap file.size) = .ok () := by
  refine forM_eq_ok fun q hq => ?_
  rcases Option.eq_none_or_eq_some (plan.zoneMaps (plan.runsOf cells).close) with
    hnone | ⟨draft, hdraft⟩
  · rw [(h.noZoneMaps hnone).1] at hq
    cases hq
  · obtain ⟨-, p, hp, hstored⟩ := h.zoneMaps draft hdraft
    obtain rfl : q = p := by simpa [hp] using hq
    rw [Column.requireInside, if_pos hstored.within_size]

theorem Written.format_eq (h : plan.Written cells file m) :
    PageFormat.new m.field m.encoding m.compression = .ok plan.format := by
  have hfield : m.field = plan.format.field := by
    rw [plan.field_eq, h.entry]
    rfl
  have hencoding : m.encoding = plan.format.encoding := by
    rw [h.entry]
    rfl
  have hcompression : m.compression = plan.format.compression := by
    rw [h.entry]
    rfl
  rw [hfield, hencoding, hcompression, PageFormat.new, dif_pos plan.format.supported]

/-- A column whose parts lie in the file can be opened. -/
theorem Written.open (h : plan.Written cells file m) (haccepts : ∀ c ∈ cells, plan.Accepts c)
    (options : ReadOptions) :
    ∃ col, Column.open options m cells.length (.memory file) = .ok col ∧
      plan.Opened cells file options col := by
  obtain ⟨entries, p, hpages, hlists, hp, hindex⟩ := h.index
  obtain ⟨hcount, hrows⟩ := rows_lt_of_lists hlists hindex
  have hnumRows : m.numRows.toNat = cells.length := by
    rw [h.entry]
    exact UInt64.toNat_ofNat_of_lt hrows
  have hparse := OrdinalIndex.parse_encode (ordered_of_lists hlists hrows) hcount
  have hpointers : ¬ (entries.toArray.map (·.pointer)) ≠ m.pages := by
    rw [hpages]
    simp
  refine ⟨⟨m, plan.format, ⟨entries.toArray, cells.length⟩, plan.pageMaps cells, .memory file,
    options.verifyChecksums⟩, ?_, ⟨hnumRows, rfl, rfl, rfl, rfl, hrows, hlists, rfl⟩⟩
  have hinside : Column.requireInside m.id .ordinalIndex file.size p = .ok () := by
    rw [Column.requireInside, if_pos hindex.within_size]
  rw [Column.open, if_neg (not_not.mpr hnumRows), hp]
  refine bind_of_eq_ok h.pagesInside (bind_of_eq_ok hinside (bind_of_eq_ok h.zoneMapsInside ?_))
  refine bind_of_eq_ok hindex.read (bind_of_eq_ok hparse ?_)
  rw [if_neg hpointers]
  rcases Option.eq_none_or_eq_some (plan.zoneMaps (plan.runsOf cells).close) with
    hnone | ⟨draft, hdraft⟩
  · rw [(h.noZoneMaps hnone).1, pageMaps, if_neg (needZoneMap_of_zoneMaps_eq_none hnone)]
    apply bind_of_eq_ok rfl
    exact bind_of_eq_ok h.format_eq rfl
  · obtain ⟨-, q, hq, hstored⟩ := h.zoneMaps draft hdraft
    have hmaps := readZoneMaps_eq_ok haccepts h.entry hlists hcount hdraft hstored
    rw [hq, pageMaps, if_pos (zoneMaps_eq_some hdraft).1]
    apply bind_of_eq_ok (congrArg (some <$> ·) hmaps)
    exact bind_of_eq_ok h.format_eq rfl

/-! ## Pages -/

namespace Opened

variable {options : ReadOptions} {col : Column}

theorem ordered (h : plan.Opened cells file options col) :
    OrdinalIndex.Ordered col.index.numRows col.index.entries.toList := by
  rw [h.rows]
  exact ordered_of_lists h.index h.rows_lt

theorem first?_eq (h : plan.Opened cells file options col) (k : ℕ) :
    col.index.first? k =
      (plan.runs cells)[k]?.map fun _ => ((plan.runs cells).take k).flatten.length := by
  rw [OrdinalIndex.first?, ← Array.getElem?_toList]
  exact getElem?_firsts h.index h.rows_lt k

/-- The rows of a page are those of its run. -/
theorem range?_eq (h : plan.Opened cells file options col) (k : ℕ) :
    col.index.range? k = (plan.runs cells)[k]?.map fun run =>
      (((plan.runs cells).take k).flatten.length,
        ((plan.runs cells).take k).flatten.length + run.length) := by
  rw [OrdinalIndex.range?, h.first?_eq, h.first?_eq, h.rows]
  cases hk : (plan.runs cells)[k]? with
  | none => rfl
  | some run => simp only [Option.map_some, stop_eq hk]

theorem entry_of_run (h : plan.Opened cells file options col) {k : ℕ} {run : List Cell}
    (hk : (plan.runs cells)[k]? = some run) :
    ∃ e page, col.index.entries[k]? = some e ∧ Page.encode plan.format run = .ok page ∧
      Stored file e.pointer page := by
  obtain ⟨e, he, -, page, hpage, hstored⟩ :=
    forall₂_getElem? h.index (Page.numbered_of_getElem? 0 hk)
  rw [Array.getElem?_toList] at he
  exact ⟨e, page, he, hpage, hstored⟩

/-- Reading a page is decoding that of its run. -/
theorem readPage_eq (h : plan.Opened cells file options col) {k : ℕ} {run : List Cell}
    (hk : (plan.runs cells)[k]? = some run) :
    ∃ page, Page.encode plan.format run = .ok page ∧ page.length < 2 ^ 32 ∧
      col.readPage k = Page.decode plan.format page run.length options.verifyChecksums := by
  obtain ⟨e, page, he, hpage, hstored⟩ := h.entry_of_run hk
  refine ⟨page, hpage, hstored.length_lt, ?_⟩
  rw [Column.readPage, he, h.range?_eq, hk, h.format, h.file_eq, h.verify]
  simp only [Option.map_some, Nat.add_sub_cancel_left]
  exact bind_of_eq_ok hstored.read rfl

/-- Each page reads as its run, unless its body is too long for the compressed form. -/
theorem readPage_eq_ok [Lz4.LawfulCompressor] (h : plan.Opened cells file options col)
    (haccepts : ∀ c ∈ cells, plan.Accepts c) {k : ℕ} {run : List Cell}
    (hk : (plan.runs cells)[k]? = some run)
    (hfit : plan.format.compression = .lz4 → ∀ bytes,
      Page.body plan.format.field plan.format.encoding run = .ok bytes → bytes.length < 2 ^ 32) :
    col.readPage k = .ok run := by
  obtain ⟨page, hpage, hsize, hread⟩ := h.readPage_eq hk
  have hrun := List.mem_of_getElem? hk
  have htakes := takes_of_accepts fun c hc => haccepts c (mem_cells_of_mem_run hrun hc)
  obtain ⟨bytes, hbody⟩ := Page.body_eq_ok plan.format.supported htakes.kinds
  have hfit := fun hc => hfit hc bytes hbody
  have hshort := Page.short_of_encode htakes hbody hfit hpage hsize
  rw [hread, Page.decode_encode htakes ((mem_runs hrun).2.trans plan.rows_le) hshort hbody hfit
    hpage]

end Opened

end ColumnPlan

end Columnar
