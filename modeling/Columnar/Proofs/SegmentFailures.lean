import Columnar.Proofs.Calls
import Columnar.Proofs.FooterParsing
import Columnar.Proofs.ReadingFailures
import Columnar.Proofs.RowAlignment
import Columnar.Proofs.TruncatedSegments

/-! # Which failures reading a segment has

What a footer tells about a column is enough to open it, unless the bytes are in doubt; and so are
they whenever a scan fails that is asked for rows that are there. -/

namespace Columnar

/-! ## Footers -/

/-- The type of the column can be stored in its encoding. -/
def ColumnMeta.Supported (m : ColumnMeta) : Prop := m.encoding.supports m.type = true

theorem Footer.supported_of_parse {data : Bytes} {f : Footer} (h : Footer.parse data = .ok f) :
    ∀ c ∈ f.columns, c.Supported :=
  fun c hc => ((Footer.wellFormed_of_parse h).1.columns c hc).supports

/-! ## Short keys -/

theorem Decoder.Doubts.checksum {α : Type} {p : Decoder α} {c : Prop} [Decidable c]
    {stored computed : UInt32} (h : Doubts p) :
    Doubts (if c then throw (.checksum stored computed) >>= fun _ : PUnit => p else p) := by
  have hthrow : Doubts (throw (.checksum stored computed) : Decoder PUnit) := by
    intro bs e rest he
    cases he
    rfl
  exact .ite (hthrow.bind fun _ => h) h

theorem ShortKeyIndex.doubts_decode : Decoder.Doubts ShortKeyIndex.decode := by
  have hword32 : ∀ what, Decoder.Doubts (Decoder.word32 what) := fun what =>
    (Decoder.doubts_word _ _).bind fun _ => .pure _
  have hget : Decoder.Doubts (get : Decoder Bytes) := by
    intro bs e rest h
    cases h
  refine (hword32 _).bind fun segmentId => (hword32 _).bind fun numRowsPerBlock => ?_
  refine (Decoder.doubts_word _ _).bind fun numItems => (hword32 _).bind fun numRows => ?_
  refine (Decoder.doubts_word _ _).bind fun keySize => ?_
  refine (Decoder.doubts_word _ _).bind fun offsetSize => (hword32 _).bind fun stored => ?_
  refine hget.bind fun rest => .check (.checksum (.check (.check ?_)))
  refine (Decoder.doubts_take _ _).bind fun keys => ?_
  refine (Decoder.doubts_times (Decoder.doubts_word _ _) _).bind fun offsets => ?_
  cases ShortKeyIndex.misplaced? keySize 0 0 offsets with
  | none => exact .pure _
  | some placed => exact (Decoder.Doubts.fail _).bind fun _ => .pure _

/-! ## Segments -/

namespace Segment

variable {bytes : Array UInt8} {s : Segment}

/-- A segment that opens has the footer that its file ends in. -/
theorem of_open_eq_ok {file : File} (h : Segment.open file = .ok s) :
    s.file = file ∧ ∃ data, Footer.parse data = .ok s.footer := by
  obtain ⟨⟨size, stored⟩, -, h⟩ := of_bind_eq_ok h
  obtain ⟨-, h⟩ := of_check_eq_ok h
  obtain ⟨data, -, h⟩ := of_bind_eq_ok h
  obtain ⟨-, h⟩ := of_check_eq_ok h
  obtain ⟨footer, hparse, h⟩ := of_bind_eq_ok h
  cases hkeys : footer.shortKeys with
  | none =>
      rw [hkeys] at h
      cases h
      exact ⟨rfl, data, hparse⟩
  | some p =>
      rw [hkeys] at h
      obtain ⟨-, h⟩ := of_check_eq_ok h
      cases h
      exact ⟨rfl, data, hparse⟩

/-- A file is refused as corrupt, unless a footer at its end is of another version. -/
theorem isCorruption_or_version {e : Error} (h : Segment.open (.memory bytes) = .error e) :
    e.isCorruption = true ∨ ∃ body version rest, version ≠ Footer.supportedVersion ∧
      Sealed bytes body (version :: rest) ∧
      e = .unsupported (.footerVersion version Footer.supportedVersion) := by
  rcases sealed_or_isCorruption bytes with ⟨body, data, hsealed⟩ | ⟨e', hopen, hcorrupt⟩
  · by_cases hcorrupt : e.isCorruption = true
    · exact .inl hcorrupt
    · refine .inr ?_
      by_contra hnone
      obtain ⟨e', hopen, hcorrupt'⟩ := hsealed.isCorruption_iff.mpr <| by
        rintro (⟨f, hparse, hkeys⟩ | ⟨version, hhead, hversion⟩)
        · rw [hsealed.open_eq_ok hparse hkeys] at h
          cases h
        · obtain ⟨rest, rfl⟩ := List.head?_eq_some_iff.mp hhead
          rw [hsealed.open_eq, Footer.parse_eq_error hversion] at h
          cases h
          exact hnone ⟨body, version, rest, hversion, hsealed, rfl⟩
      rw [hopen] at h
      cases h
      exact hcorrupt hcorrupt'
  · rw [hopen] at h
    cases h
    exact .inl hcorrupt

theorem honest_shortKeys (hfile : s.file = .memory bytes) :
    Honest s.shortKeys fun _ => True := by
  unfold Segment.shortKeys
  cases s.footer.shortKeys with
  | none => exact .ok trivial
  | some p =>
      rw [hfile]
      refine (File.honest_readAt bytes _ _).bind fun data _ _ => ?_
      have hparse : Honest (ShortKeyIndex.parse data) fun _ => True := by
        unfold ShortKeyIndex.parse
        cases hindex : ShortKeyIndex.decode data with
        | ok index rest => exact .ok trivial
        | error e rest => exact .error (ShortKeyIndex.doubts_decode _ _ _ hindex)
      exact hparse.bind fun index _ _ => .check fun _ => .ok trivial

theorem honest_column (h : Segment.open (.memory bytes) = .ok s) {id : ℕ}
    (hid : id < s.numColumns) (options : ReadOptions) :
    Honest (s.column id options) fun c =>
      c.Indexed ∧ c.file = .memory bytes ∧ c.numRows = s.numRows := by
  obtain ⟨hfile, data, hparse⟩ := of_open_eq_ok h
  obtain ⟨entry, hentry⟩ : ∃ entry, s.footer.columns[id]? = some entry :=
    ⟨_, List.getElem?_eq_getElem hid⟩
  rw [Segment.column, hentry, hfile]
  have hsupported := Footer.supported_of_parse hparse _ (List.mem_of_getElem? hentry)
  exact (Column.honest_open hsupported options s.numRows bytes).mono fun c _ hc =>
    ⟨hc.indexed, hc.file_eq, hc.numRows_eq⟩

theorem honest_rows (h : Segment.open (.memory bytes) = .ok s) (options : ReadOptions) :
    Honest (s.rows options) fun _ => True := by
  have hcolumns := Honest.mapM fun id (hid : id ∈ List.range s.numColumns) =>
    honest_column h (List.mem_range.mp hid) options
  exact hcolumns.bind fun columns _ _ => .ok trivial

end Segment

/-! ## Scans -/

theorem Honest.of_run {σ α : Type} {x : EStateM.Result Error σ α} {P : α → Prop}
    (h : Honest (settle x).1 P) {e : Error} {s : σ} (hx : x = .error e s) :
    e.isCorruption = true := by
  subst hx
  exact h.isCorruption rfl

namespace Scan

variable {bytes : Array UInt8} {c : Column} {s : Scan} {ordinal : ℕ}

theorem At.honest_seek (h : At c s ordinal) (hfile : c.file = .memory bytes) {target : ℕ}
    (hle : target ≤ c.numRows) : Honest (settle (Scan.seek target s)).1 fun _ => True := by
  rcases h.seek_cases target with
    ⟨hpast, -⟩ | ⟨s', -, hscan, -⟩ | ⟨e, s', hlt, hcell, hscan, -⟩
  · omega
  · rw [hscan]
    exact .ok trivial
  · rw [hscan]
    exact .error ((h.indexed.honest_cellAt hfile hlt).isCorruption hcell)

theorem At.honest_next (h : At c s ordinal) (hfile : c.file = .memory bytes) {limit : ℕ}
    (hlimit : 0 < limit) (earlier : Array Cell) :
    Honest (settle (Scan.next limit (s, earlier))).1 fun _ => True := by
  rcases h.next_cases hlimit earlier with ⟨_, _, -, hscan, -⟩ | ⟨cells, e, s', hlt, hcell, hscan, -⟩
  · rw [hscan]
    exact .ok trivial
  · rw [hscan]
    exact .error ((h.indexed.honest_cellAt hfile (by omega)).isCorruption hcell)

end Scan

namespace RowScan

variable {bytes : Array UInt8} {numRows : ℕ} {columns : List Column} {scans : List Scan}

theorem honest_seekAll (h : List.Forall₂ (Stands numRows) columns scans)
    (hfile : ∀ c ∈ columns, c.file = .memory bytes) {target : ℕ} (hle : target ≤ numRows) :
    Honest (settle (seekAll target scans)).1 fun _ => True := by
  induction h with
  | nil => exact .ok trivial
  | @cons c s columns scans hs hscans ih =>
      obtain ⟨rfl, hat⟩ := hs
      have hseek := hat.honest_seek (hfile c (by simp)) hle
      have hrest := ih fun c' hc' => hfile c' (List.mem_cons_of_mem c hc')
      rw [seekAll]
      cases hrun : Scan.seek target s with
      | error e s' => exact .error (hseek.of_run hrun)
      | ok _ s' =>
          cases hall : seekAll target scans with
          | ok _ scans' => exact .ok trivial
          | error e scans' => exact .error (hrest.of_run hall)

theorem honest_nextAll (h : List.Forall₂ (Stands numRows) columns scans)
    (hfile : ∀ c ∈ columns, c.file = .memory bytes) {limit : ℕ} (hlimit : 0 < limit)
    (position : ℕ) (expected : Option ℕ) :
    Honest (settle (nextAll limit position expected scans)).1 fun _ => True := by
  induction h generalizing position expected with
  | nil => exact .ok trivial
  | @cons c s columns scans hs hscans ih =>
      obtain ⟨rfl, hat⟩ := hs
      have hnext := hat.honest_next (hfile c (by simp)) hlimit #[]
      rw [nextAll]
      cases hrun : Scan.next limit (s, #[]) with
      | error e state => exact .error (hnext.of_run hrun)
      | ok status state =>
          obtain ⟨s', cells⟩ := state
          have hrest := ih (fun c' hc' => hfile c' (List.mem_cons_of_mem c hc')) (position + 1)
            (some cells.size)
          by_cases huneven : expected.any (· ≠ cells.size) = true
          · simp only [if_pos huneven]
            exact .error rfl
          · simp only [if_neg huneven]
            cases hall : nextAll limit (position + 1) (some cells.size) scans with
            | ok produced state => exact .ok trivial
            | error e state => exact .error (hrest.of_run hall)

variable {r : RowScan}

theorem Coherent.honest_seek (h : Coherent columns r)
    (hfile : ∀ c ∈ columns, c.file = .memory bytes) {target : ℕ} (hle : target ≤ r.numRows) :
    Honest (settle (RowScan.seek target r)).1 fun _ => True := by
  have hall := honest_seekAll h.stands hfile hle
  rw [RowScan.seek]
  cases hrun : seekAll target r.columns with
  | ok _ scans => exact .ok trivial
  | error e scans => exact .error (hall.of_run hrun)

theorem Coherent.honest_next (h : Coherent columns r)
    (hfile : ∀ c ∈ columns, c.file = .memory bytes) {limit : ℕ} (hlimit : 0 < limit)
    (earlier : RowBlock) : Honest (settle (RowScan.next limit (r, earlier))).1 fun _ => True := by
  have hall := honest_nextAll h.stands hfile hlimit 0 none
  simp only [RowScan.next, if_neg (Nat.ne_of_gt hlimit)]
  by_cases hend : r.numRows ≤ r.ordinal
  · rw [if_pos hend]
    exact .ok trivial
  · rw [if_neg hend]
    cases hrun : nextAll limit 0 none r.columns with
    | ok produced state => exact .ok trivial
    | error e state => exact .error (hall.of_run hrun)

/-- No batch gets past the last row. -/
theorem Coherent.read_le (h : Coherent columns r) {limit n : ℕ} {earlier : RowBlock}
    {state : RowScan × RowBlock}
    (hnext : RowScan.next limit (r, earlier) = .ok (.read n) state) :
    r.ordinal + n ≤ r.numRows := by
  rcases h.next_cases (limit_pos hnext) earlier with
    ⟨-, hrun⟩ | ⟨r', cells, hlt, hrun, -⟩ | ⟨e, r', block, hrun, -⟩
  · rw [hrun] at hnext
    cases hnext
  · rw [hrun] at hnext
    cases hnext
    omega
  · rw [hrun] at hnext
    cases hnext

/-- Without columns there is nothing to move. -/
theorem seek_nil (h : r.columns = []) (target : ℕ) :
    RowScan.seek target r = .ok () { r with columns := [], ordinal := target } := by
  rw [RowScan.seek, h]
  rfl

/-- Nor is there anything to read. -/
theorem next_nil (h : r.columns = []) {limit : ℕ} (hlimit : 0 < limit) (earlier : RowBlock) :
    RowScan.next limit (r, earlier) = .ok .endOfData (r, ⟨[]⟩) := by
  obtain ⟨columns, numRows, ordinal⟩ := r
  obtain rfl : columns = [] := h
  simp [RowScan.next, nextAll, RowBlock.empty, Nat.ne_of_gt hlimit]

theorem after_nil (h : r.columns = []) (calls : List Call) : (after calls r).columns = [] := by
  induction calls generalizing r with
  | nil => exact h
  | cons call calls ih =>
      refine ih ?_
      cases call with
      | seek target => simp only [Call.run, seek_nil h]
      | next limit earlier =>
          rcases Nat.eq_zero_or_pos limit with rfl | hlimit
          · exact h
          · simp only [Call.run, next_nil h hlimit]
            exact h

end RowScan

/-- After any calls the columns of a segment are aligned or stuck, if it has any. -/
theorem Segment.after_rows {bytes : Array UInt8} {s : Segment} {options : ReadOptions}
    {scan : RowScan} (h : Segment.open (.memory bytes) = .ok s)
    (hscan : s.rows options = .ok scan) (calls : List RowScan.Call) :
    let r := RowScan.after calls scan
    r.columns = [] ∨ ∃ columns, RowScan.Coherent columns r ∧ r.numRows = s.numRows ∧
      ∀ c ∈ columns, c.file = .memory bytes := by
  obtain ⟨columns, hlen, hcolumns, rfl⟩ := Segment.rows_eq_ok hscan
  rcases Nat.eq_zero_or_pos s.numColumns with hzero | hpos
  · obtain rfl := List.eq_nil_of_length_eq_zero (hlen.trans hzero)
    exact .inl (RowScan.after_nil rfl calls)
  · obtain ⟨hcoherent, hrows⟩ := (Segment.rows_coherent hlen hpos hcolumns).after calls
    refine .inr ⟨columns, hcoherent, hrows, fun c hc => ?_⟩
    obtain ⟨id, hid⟩ := List.mem_iff_getElem?.mp hc
    obtain ⟨entry, -, hopens⟩ := Segment.opensFrom_of_column (hcolumns id c hid)
    rw [hopens.file_eq, (Segment.of_open_eq_ok h).1]

end Columnar
