import Columnar.Proofs.ChecksumBytes
import Columnar.Proofs.ColumnBatches
import Columnar.Proofs.ReadingFailures

/-! # Columns of a file with an altered byte

When one byte of a file is another than the one that was written, a column either shows the cells
that it took or puts the bytes in doubt. Checksums tell of an altered page. The ordinal index has
none, but no two indexes that differ in a byte cut the rows into the runs of the pages. -/

namespace Columnar

/-! ## Altered bytes -/

/-- One byte that is another makes another checksum. -/
theorem crc32c_set_ne {bs : Bytes} {k : ℕ} {b : UInt8} (hk : k < bs.length) (hb : bs[k] ≠ b) :
    crc32c (bs.set k b) ≠ crc32c bs := by
  have hsplit : bs.take k ++ bs[k] :: bs.drop (k + 1) = bs := by
    rw [← List.drop_eq_getElem_cons hk, List.take_append_drop]
  rw [List.set_eq_take_append_cons_drop, if_pos hk]
  nth_rewrite 3 [← hsplit]
  exact crc32c_ne hb.symm _ _

/-- A part of the file reads as it was stored, or with one byte altered. -/
theorem Stored.read_set {file : Array UInt8} {p : Pointer} {bs : Bytes} (h : Stored file p bs)
    {i : ℕ} {b : UInt8} (hi : i < file.size) (hb : file[i] ≠ b) :
    (File.memory (file.set i b)).read p = .ok bs ∨
      ∃ k, ∃ hk : k < bs.length, bs[k] ≠ b ∧
        (File.memory (file.set i b)).read p = .ok (bs.set k b) := by
  have hwithin := h.within
  have hcontent := h.content
  have hread : (File.memory (file.set i b)).read p =
      .ok (((file.toList.set i b).drop p.offset.toNat).take bs.length) := by
    rw [File.read, File.readAt_memory, h.size_eq, Array.size_set, if_pos hwithin,
      Array.toList_extract, List.extract_eq_take_drop, Nat.add_sub_cancel_left, Array.toList_set]
  rw [hread, List.drop_set]
  by_cases hbefore : i < p.offset.toNat
  · rw [if_pos hbefore, hcontent]
    exact .inl rfl
  · rw [if_neg hbefore, List.take_set, hcontent]
    by_cases hin : i - p.offset.toNat < bs.length
    · refine .inr ⟨i - p.offset.toNat, hin, ?_, rfl⟩
      have hbyte : bs[i - p.offset.toNat]? = some file[i] := by
        rw [← hcontent, List.getElem?_take_of_lt hin, List.getElem?_drop,
          Nat.add_sub_cancel' (by omega), Array.getElem?_toList, Array.getElem?_eq_getElem hi]
      rw [List.getElem?_eq_getElem hin] at hbyte
      rwa [Option.some.inj hbyte]
    · rw [List.set_eq_of_length_le (by omega)]
      exact .inl rfl

/-! ## Altered pages -/

namespace Page

theorem stripChecksum_append (compressed : Bytes) {word : Bytes} (hword : word.length = 4) :
    stripChecksum (compressed ++ word) true =
      if UInt32.ofNat (Bytes.toNat word) = crc32c compressed then .ok compressed
      else .error (.checksum (UInt32.ofNat (Bytes.toNat word)) (crc32c compressed)) := by
  have hlen : (compressed ++ word).length = compressed.length + 4 := by
    rw [List.length_append, hword]
  have hcut : (compressed ++ word).length - 4 = compressed.length := by omega
  simp only [stripChecksum, if_neg (show ¬ (compressed ++ word).length < 4 by omega), hcut,
    List.take_left, List.drop_left, if_true]

theorem ofNat_toNat_ne {word : Bytes} {k : ℕ} {b : UInt8} (hword : word.length = 4)
    (hk : k < word.length) (hb : word[k] ≠ b) :
    UInt32.ofNat (Bytes.toNat (word.set k b)) ≠ UInt32.ofNat (Bytes.toNat word) := by
  intro heq
  have hlt : ∀ bs : Bytes, bs.length = 4 → bs.toNat < 2 ^ 32 := fun bs hbs => by
    have hlt := Bytes.toNat_lt bs
    rw [hbs] at hlt
    exact hlt.trans_le (by norm_num)
  have hnat := congrArg UInt32.toNat heq
  rw [UInt32.toNat_ofNat_of_lt' (hlt _ (by simpa using hword)),
    UInt32.toNat_ofNat_of_lt' (hlt _ hword)] at hnat
  have hset := congrArg (·[k]?) (Bytes.toNat_inj (List.length_set) hnat)
  simp only [List.getElem?_set_self hk, List.getElem?_eq_getElem hk] at hset
  exact hb (Option.some.inj hset).symm

/-- A checksum tells of any byte that is altered, be it one of its own. -/
theorem stripChecksum_set {compressed word : Bytes} (hword : word.length = 4)
    (hstored : UInt32.ofNat (Bytes.toNat word) = crc32c compressed) {k : ℕ} {b : UInt8}
    (hk : k < (compressed ++ word).length) (hb : (compressed ++ word)[k] ≠ b) :
    ∃ stored computed,
      stripChecksum ((compressed ++ word).set k b) true = .error (.checksum stored computed) := by
  by_cases hin : k < compressed.length
  · rw [List.getElem_append_left hin] at hb
    rw [List.set_append_left _ _ hin, stripChecksum_append _ hword, hstored,
      if_neg (crc32c_set_ne hin hb).symm]
    exact ⟨_, _, rfl⟩
  · have hle : compressed.length ≤ k := by omega
    have hk' : k - compressed.length < word.length := by
      rw [List.length_append] at hk
      omega
    rw [List.getElem_append_right hle] at hb
    rw [List.set_append_right _ _ hle, stripChecksum_append _ (by simpa using hword), ← hstored,
      if_neg (ofNat_toNat_ne hword hk' hb)]
    exact ⟨_, _, rfl⟩

theorem decode_set [Lz4.Compressor] {f : PageFormat} {cells : List Cell} {page : Bytes}
    (hpage : encode f cells = .ok page) {k : ℕ} {b : UInt8} (hk : k < page.length)
    (hb : page[k] ≠ b) (rows : ℕ) : Honest (decode f (page.set k b) rows true) fun _ => False := by
  refine .check fun _ => ?_
  obtain ⟨bytes, -, hpage⟩ := of_bind_eq_ok hpage
  obtain rfl : withChecksum (f.compression.compress bytes) = page := Except.ok.inj hpage
  have hstored : UInt32.ofNat (Bytes.toNat
      (Bytes.little 4 (crc32c (f.compression.compress bytes)).toNat)) =
        crc32c (f.compression.compress bytes) := by
    rw [Bytes.toNat_little_of_lt (crc32c _).toNat_lt, UInt32.ofNat_toNat]
  obtain ⟨stored, computed, hstrip⟩ :=
    stripChecksum_set (Bytes.length_little _ _) hstored hk hb
  rw [withChecksum, hstrip]
  exact .error rfl

/-- A page that reads at all reads as the cells that it was made of, if as many were asked for. -/
theorem of_decode_encode [Lz4.Compressor] [Lz4.LawfulCompressor] {f : PageFormat}
    {cells found : List Cell} {bytes page : Bytes} (h : Takes f.field f.encoding cells)
    (hrows : cells.length ≤ maxRows) (hbody : body f.field f.encoding cells = .ok bytes)
    (hfit : f.compression = .lz4 → bytes.length < 2 ^ 32) (hpage : encode f cells = .ok page)
    (hsize : page.length < 2 ^ 32) {rows : ℕ} {verify : Bool}
    (hread : decode f page rows verify = .ok found) : cells.length = rows ∧ found = cells := by
  by_cases hcount : rows = cells.length
  · subst hcount
    have hshort := short_of_encode h hbody hfit hpage hsize
    cases hread.symm.trans (decode_encode h hrows hshort hbody hfit hpage verify)
    exact ⟨rfl, rfl⟩
  · cases hread.symm.trans (decode_encode_of_ne hrows hbody hfit hpage hcount verify)

end Page

/-! ## Altered ordinal indexes -/

theorem PageEntry.encode_injective : Function.Injective PageEntry.encode := by
  intro d e h
  have hrun := (reads_encode d).run
  rw [h, (reads_encode e).run] at hrun
  cases hrun
  rfl

namespace OrdinalIndex

theorem slice_encode {entries : List PageEntry} {l : ℕ} {e : PageEntry}
    (h : entries[l]? = some e) :
    ((encode entries).drop (4 + l * PageEntry.size)).take PageEntry.size = e.encode := by
  have hslice : ((entries.flatMap PageEntry.encode).drop (l * PageEntry.size)).take
      PageEntry.size = e.encode := by
    induction entries generalizing l with
    | nil => cases h
    | cons d entries ih =>
        rw [List.flatMap_cons]
        cases l with
        | zero =>
            cases h
            rw [Nat.zero_mul, List.drop_zero, List.take_left' e.length_encode]
        | succ l =>
            rw [Nat.succ_mul, Nat.add_comm, ← List.drop_drop, List.drop_left' d.length_encode]
            exact ih h
  rw [encode, ← List.drop_drop, List.drop_left' (Bytes.length_little _ _), hslice]

/-- An altered byte of a stored index is in the entry of one page, or in none. -/
theorem entries_of_set {entries altered : List PageEntry}
    (hlen : altered.length = entries.length) {k : ℕ} {b : UInt8}
    (h : encode altered = (encode entries).set k b) :
    ∃ j : ℕ, ∀ l : ℕ, l ≠ j → altered[l]? = entries[l]? := by
  refine ⟨(k - 4) / PageEntry.size, fun l hl => ?_⟩
  rcases Nat.lt_or_ge l entries.length with hlt | hge
  · have hlt' : l < altered.length := hlen ▸ hlt
    have he : entries[l]? = some entries[l] := List.getElem?_eq_getElem hlt
    have hd : altered[l]? = some altered[l] := List.getElem?_eq_getElem hlt'
    have hsame := slice_encode hd
    rw [h, List.drop_set] at hsame
    rw [he, hd]
    refine congrArg some (PageEntry.encode_injective ?_)
    rw [← hsame, ← slice_encode he]
    by_cases hbefore : k < 4 + l * PageEntry.size
    · rw [if_pos hbefore]
    · -- the byte stands behind the entry, since it is not in it
      rw [if_neg hbefore, List.take_set, List.set_eq_of_length_le]
      have hbehind : ¬ k - (4 + l * PageEntry.size) < PageEntry.size := by
        intro hin
        refine hl ((Nat.div_eq_of_lt_le ?_ ?_).symm)
        · omega
        · rw [Nat.succ_mul]
          omega
      rw [List.length_take]
      omega
  · rw [List.getElem?_eq_none hge, List.getElem?_eq_none (hlen ▸ hge)]

end OrdinalIndex

/-! ## Columns -/

namespace ColumnPlan

variable [Lz4.Compressor] {plan : ColumnPlan} {cells : List Cell} {file : Array UInt8}
  {m : ColumnMeta} {options : ReadOptions} {c : Column}

theorem Written.eq_format (h : plan.Written cells file m) {source : File}
    (hopens : Column.OpensFrom options m cells.length source c) : c.format = plan.format :=
  Except.ok.inj (hopens.format.symm.trans h.format_eq)

/-- From whatever file the column was opened, its pages are looked for where they were written. -/
theorem Written.page_of_range (h : plan.Written cells file m) {source : File}
    (hopens : Column.OpensFrom options m cells.length source c) {k first stop : ℕ}
    (hk : c.index.range? k = some (first, stop)) :
    ∃ run e page, (plan.runs cells)[k]? = some run ∧ c.index.entries[k]? = some e ∧
      Page.encode plan.format run = .ok page ∧ Stored file e.pointer page := by
  obtain ⟨entries, p, hpages, hlists, -⟩ := h.index
  obtain ⟨e, he, -⟩ := Option.map_eq_some_iff.mp (OrdinalIndex.range?_eq_some hk).1
  have hpointer := congrArg (·[k]?) (hopens.pointers.trans hpages)
  simp only [Array.getElem?_map, he, Option.map_some, List.getElem?_toArray,
    List.getElem?_map] at hpointer
  obtain ⟨d, hd, hsame⟩ := Option.map_eq_some_iff.mp hpointer.symm
  obtain ⟨n, hn, -, page, hpage, hstored⟩ := forall₂_getElem? hlists.flip hd
  rw [Page.getElem?_numbered] at hn
  obtain ⟨run, hrun, rfl⟩ := Option.map_eq_some_iff.mp hn
  exact ⟨run, e, page, hrun, he, hpage, hsame ▸ hstored⟩

variable {i : ℕ} {b : UInt8} (hi : i < file.size)
include hi

/-- All pages but one begin at the row where they did. -/
theorem Written.firsts_of_set (h : plan.Written cells file m) (hb : file[i] ≠ b)
    (hopens : Column.OpensFrom options m cells.length (.memory (file.set i b)) c) :
    ∃ j : ℕ, ∀ k : ℕ, k ≠ j → c.index.first? k =
      (plan.runs cells)[k]?.map fun _ => ((plan.runs cells).take k).flatten.length := by
  obtain ⟨entries, p, hpages, hlists, hp, hstored⟩ := h.index
  obtain ⟨-, hrows⟩ := rows_lt_of_lists hlists hstored
  obtain ⟨q, data, hq, hdata, hparse⟩ := hopens.index
  obtain rfl : q = p := by simpa [hp] using hq.symm
  obtain ⟨-, -, -, rfl⟩ := OrdinalIndex.parse_eq_ok_iff.mp hparse
  have hlen : c.index.entries.toList.length = entries.length := by
    have hsize := congrArg Array.size (hopens.pointers.trans hpages)
    simpa using hsize
  -- the index that was parsed is the one that was written, but for a byte
  have hentries : ∃ j : ℕ, ∀ k : ℕ, k ≠ j → c.index.entries.toList[k]? = entries[k]? := by
    rcases hstored.read_set hi hb with hsame | ⟨k, -, -, hset⟩
    · rw [hsame] at hdata
      have hset : (OrdinalIndex.encode entries).set _ b = _ := List.set_eq_of_length_le le_rfl
      exact OrdinalIndex.entries_of_set hlen ((Except.ok.inj hdata).symm.trans hset.symm)
    · rw [hset] at hdata
      exact OrdinalIndex.entries_of_set hlen (Except.ok.inj hdata).symm
  obtain ⟨j, hj⟩ := hentries
  refine ⟨j, fun k hk => ?_⟩
  rw [OrdinalIndex.first?, ← Array.getElem?_toList, hj k hk]
  exact getElem?_firsts hlists hrows k

/-- A page of a column with an altered byte reads as its run, where it begins in the rows, or the
bytes are put in doubt. -/
theorem Written.honest_readPage [Lz4.LawfulCompressor] (h : plan.Written cells file m)
    (haccepts : ∀ cell ∈ cells, plan.Accepts cell) (hfit : plan.Fits cells)
    (hverify : options.verifyChecksums = true) (hb : file[i] ≠ b)
    (hopens : Column.OpensFrom options m cells.length (.memory (file.set i b)) c) {k first stop : ℕ}
    (hk : c.index.range? k = some (first, stop)) :
    Honest (c.readPage k) fun found =>
      (plan.runs cells)[k]? = some found ∧ first = ((plan.runs cells).take k).flatten.length := by
  obtain ⟨run, e, page, hrun, he, hpage, hstored⟩ := h.page_of_range hopens hk
  rw [Column.readPage, he, hk, hopens.file_eq, hopens.verify_eq, hverify, h.eq_format hopens]
  rcases hstored.read_set hi hb with hsame | ⟨n, hn, hne, hset⟩
  · simp only [hsame]
    refine (Page.honest_decode plan.format page (stop - first) true).mono fun found hfound _ => ?_
    have hmem := List.mem_of_getElem? hrun
    have htakes := takes_of_accepts fun cell hcell =>
      haccepts cell (mem_cells_of_mem_run hmem hcell)
    obtain ⟨bytes, hbody⟩ := Page.body_eq_ok plan.format.supported htakes.kinds
    obtain ⟨hlen, rfl⟩ := Page.of_decode_encode htakes ((mem_runs hmem).2.trans plan.rows_le) hbody
      (fun hc => hfit hc run hmem bytes hbody) hpage hstored.length_lt hfound
    refine ⟨hrun, ?_⟩
    obtain ⟨j, hj⟩ := h.firsts_of_set hi hb hopens
    obtain ⟨hfirst, hstop⟩ := OrdinalIndex.range?_eq_some hk
    rcases eq_or_ne k j with rfl | hkj
    · -- the page ends where it did, and has as many rows
      have hindexed := hopens.indexed
      have hlt := (OrdinalIndex.range?_bounds hindexed.ordered hk).1
      rw [hj (k + 1) (Nat.succ_ne_self k), hindexed.rows, hopens.numRows_eq, stop_eq hrun] at hstop
      omega
    · rw [hj k hkj, hrun] at hfirst
      exact (Option.some.inj hfirst).symm
  · simp only [hset]
    exact (Page.decode_set hpage hn hne _).mono fun _ _ hfalse => hfalse.elim

/-- So does each row as its cell. -/
theorem Written.shows_of_set [Lz4.LawfulCompressor] (h : plan.Written cells file m)
    (haccepts : ∀ cell ∈ cells, plan.Accepts cell) (hfit : plan.Fits cells)
    (hverify : options.verifyChecksums = true) (hb : file[i] ≠ b)
    (hopens : Column.OpensFrom options m cells.length (.memory (file.set i b)) c) :
    c.Shows (·.isCorruption = true) cells where
  numRows := hopens.numRows_eq
  indexed := hopens.indexed
  cellAt j cell hj := by
    obtain ⟨hlt, -⟩ := List.getElem?_eq_some_iff.mp hj
    have hindexed := hopens.indexed
    have hrow : j < c.index.numRows := by rwa [hindexed.rows, hopens.numRows_eq]
    obtain ⟨first, stop, hrange, hfirst, hstop⟩ := OrdinalIndex.findPage_spec hindexed.ordered hrow
    rw [Column.cellAt]
    rcases h.honest_readPage hi haccepts hfit hverify hb hopens hrange with
      ⟨run, hread, hrun, rfl⟩ | ⟨e, hread, hdoubt⟩
    · have hlen := Column.length_of_readPage hrange hread
      rw [hread, (OrdinalIndex.range?_eq_some hrange).1, Option.getD_some]
      refine .inl (bind_of_eq_ok rfl ?_)
      rw [getElem?_run hrun hfirst (by omega), hj]
      rfl
    · rw [hread]
      exact .inr ⟨e, rfl, hdoubt⟩

/-- A column of a file with an altered byte opens and shows the cells that it took, or the bytes are
put in doubt. -/
theorem Written.honest_open [Lz4.LawfulCompressor] (h : plan.Written cells file m)
    (haccepts : ∀ cell ∈ cells, plan.Accepts cell) (hfit : plan.Fits cells)
    (hverify : options.verifyChecksums = true) (hb : file[i] ≠ b) :
    Honest (Column.open options m cells.length (.memory (file.set i b)))
      (Column.Shows (·.isCorruption = true) cells) := by
  have hsupports : m.encoding.supports m.type = true := by
    have hsupported := plan.format.supported
    rw [plan.field_eq] at hsupported
    rw [h.entry]
    exact hsupported
  exact (Column.honest_open hsupports options cells.length (file.set i b)).mono
    fun c _ hopens => h.shows_of_set hi haccepts hfit hverify hb hopens

end ColumnPlan

end Columnar
