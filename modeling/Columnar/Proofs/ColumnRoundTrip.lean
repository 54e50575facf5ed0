import Columnar.Proofs.ColumnReading
import Columnar.Proofs.Lz4Matches
import Columnar.Proofs.OfferedCells
import Columnar.Proofs.PageCuts

/-! # Columns come back

What a column took is read from it again, page by page. Which cells are on which page does not
depend on how they came in: they are cut greedily. -/

namespace Columnar

namespace ColumnPlan

variable {plan : ColumnPlan} {cells : List Cell} {file : Array UInt8}

theorem Heads.numRows_eq {m : ColumnMeta} (h : plan.Heads cells m) (hrows : cells.length < 2 ^ 64) :
    m.numRows.toNat = cells.length := by
  rw [h]
  exact UInt64.toNat_ofNat_of_lt hrows

theorem cut_runs (plan : ColumnPlan) (cells : List Cell) :
    Page.Cut plan.column.field plan.options cells (plan.runs cells) := by
  rw [← plan.field_eq]
  exact Page.cut_runs plan.format plan.options cells

variable [Lz4.Compressor]

theorem Accepts.isOk_iff {w : ColumnWriter} {r : Page.Runs} (h : plan.Holds r w) (c : Cell) :
    (w.check c).isOk = decide (plan.Accepts c) := by
  rw [h.check]
  by_cases haccepts : plan.Accepts c
  · rw [decide_eq_true haccepts, show plan.entry.check c = .ok () from haccepts]
    rfl
  · rw [decide_eq_false haccepts]
    cases hcheck : plan.entry.check c with
    | ok _ => exact absurd hcheck haccepts
    | error e => rfl

theorem Opened.numPages_eq {options : ReadOptions} {col : Column}
    (h : plan.Opened cells file options col) : col.numPages = (plan.runs cells).length := by
  have hpages := h.index.length_eq
  rwa [Page.length_numbered, Array.length_toList] at hpages

end ColumnPlan

/-- Of the cells that are offered to a column those are taken that its schema allows. They are cut
greedily into runs, in the only way there is; the column that is written opens, with a page for each
run, which begins behind the runs before it and reads as the run. -/
theorem column_reads_back [Lz4.Compressor] [Lz4.LawfulCompressor] {id : UInt32}
    {c : ColumnSchema} {o : ColumnOptions} {offered taken : List Cell}
    {initial file : Array UInt8} {w₀ w₁ w₂ : ColumnWriter}
    (hnew : ColumnWriter.new id c o = .ok w₀)
    (hoffer : ColumnWriter.offer offered w₀ = (taken, w₁))
    (hwrites : ColumnWriter.Writes w₁ initial w₂ file) (hsize : file.size < 2 ^ 64)
    (hfit : o.compression = .lz4 → ∀ runs, Page.Cut c.field o taken runs → ∀ run ∈ runs, ∀ body,
      Page.body c.field (o.encoding.getD (.default c.type)) run = .ok body →
        body.length < 2 ^ 32)
    (options : ReadOptions) :
    taken = offered.filter (fun cell => (w₀.check cell).isOk) ∧
      w₂.entry.numRows.toNat = taken.length ∧
      ∃ runs, Page.Cut c.field o taken runs ∧
        (∀ others, Page.Cut c.field o taken others → others = runs) ∧
        ∃ col, Column.open options w₂.entry taken.length (.memory file) = .ok col ∧
          col.numRows = taken.length ∧ col.numPages = runs.length ∧
          ∀ k run, runs[k]? = some run →
            col.index.first? k = some (runs.take k).flatten.length ∧ col.readPage k = .ok run := by
  obtain ⟨plan, -, rfl, rfl, hencoding, hcompression, hholds, hopen⟩ := ColumnPlan.new_eq_ok hnew
  have hstart : plan.Holds (plan.runsOf []) w₀ := hholds
  obtain ⟨htaken, hleft⟩ := hstart.offer hopen (by simp) offered
  rw [hoffer] at htaken hleft
  simp only [List.nil_append] at htaken hleft
  rw [← htaken] at hleft
  have haccepts : ∀ cell ∈ taken, plan.Accepts cell := fun cell hcell => by
    rw [htaken] at hcell
    exact of_decide_eq_true (List.mem_filter.mp hcell).2
  have hwritten := hleft.writes hwrites hsize
  obtain ⟨col, hcol, hopened⟩ := hwritten.open haccepts options
  have hcut := plan.cut_runs taken
  refine ⟨?_, hwritten.entry.numRows_eq hopened.rows_lt, plan.runs taken, hcut,
    fun others hothers => hothers.unique hcut, col, hcol, hopened.numRows, hopened.numPages_eq,
    fun k run hk => ⟨?_, hopened.readPage_eq_ok haccepts hk fun hc bytes hbytes => ?_⟩⟩
  · have hchecks : (fun cell => decide (plan.Accepts cell)) = fun cell => (w₀.check cell).isOk :=
      funext fun cell => (ColumnPlan.Accepts.isOk_iff hholds cell).symm
    rw [htaken, hchecks]
  · rw [hopened.first?_eq, hk]
    rfl
  · refine hfit (hcompression ▸ hc) _ hcut run (List.mem_of_getElem? hk) bytes ?_
    rw [← hencoding, ← plan.field_eq]
    exact hbytes

attribute [local instance] Lz4.matcher

/-- Strings of at most three bytes, cut by their number and by their length. A null, a number and a
string that is too long are refused. -/
theorem column_reads_back_strings :
    let c : ColumnSchema :=
      { uniqueId := 1, name := "tag", type := .varchar, length := 3, isNullable := false }
    let o : ColumnOptions :=
      { encoding := some .dictionary, needZoneMap := true, dataPageSize := 9, maxRowsPerPage := 3 }
    let s (bs : Bytes) : Cell := some (.bytes bs)
    let offered : List Cell := [s [97, 98], none, s [97, 98], s [99], some (.int32 7), s [],
      s [1, 2, 3, 4], s [98], s [97]]
    let runs : List (List Cell) := [[s [97, 98], s [97, 98]], [s [99], s [], s [98]], [s [97]]]
    ∃ w₀ w₁ w₂ file, ColumnWriter.new 0 c o = .ok w₀ ∧
      ColumnWriter.offer offered w₀ = (runs.flatten, w₁) ∧
      ColumnWriter.Writes w₁ #[7] w₂ file ∧ file.size < 2 ^ 64 ∧
      ∃ col, Column.open {} w₂.entry 6 (.memory file) = .ok col ∧ col.numPages = 3 ∧
        ∀ k run, runs[k]? = some run →
          col.index.first? k = some (runs.take k).flatten.length ∧ col.readPage k = .ok run := by
  intro c o s offered runs
  let format : PageFormat := ⟨c.field, .dictionary, .lz4, by decide⟩
  have hrun : ((ColumnWriter.new 0 c o).toOption.bind fun w₀ =>
      (outcome? (ColumnWriter.writeAll ((ColumnWriter.offer offered w₀).2, .memory #[7]))).map
        fun t => ((ColumnWriter.offer offered w₀).1, t.2.2.bytes?.any (·.size < 2 ^ 64))) =
      some (runs.flatten, true) := by
    decide +kernel
  have hruns : Page.runs format o runs.flatten = runs := by decide +kernel
  have hbodies : ∀ run ∈ runs, ∀ body ∈ (Page.body c.field .dictionary run).toOption,
      body.length < 2 ^ 32 := by
    decide +kernel
  obtain ⟨w₀, hnew, hrun⟩ := Option.bind_eq_some_iff.mp hrun
  obtain ⟨⟨_, w₂, out⟩, hwrite, hrun⟩ := Option.map_eq_some_iff.mp hrun
  obtain ⟨htaken, hfile⟩ := Prod.mk.inj hrun
  obtain ⟨file, hout, hsize⟩ := (Option.any_eq_true _ _).mp hfile
  cases OutputFile.eq_memory_of_bytes? hout
  have hnew := eq_ok_of_toOption hnew
  have hoffer : ColumnWriter.offer offered w₀ =
      (runs.flatten, (ColumnWriter.offer offered w₀).2) := Prod.ext htaken rfl
  have hwrites := ColumnWriter.writes_of_writeAll (eq_ok_of_outcome? hwrite)
  have hcut : Page.Cut c.field o runs.flatten runs := by
    have hcut := Page.cut_runs format o runs.flatten
    rwa [hruns] at hcut
  obtain ⟨-, -, runs', -, honly, col, hcol, -, hpages, hread⟩ :=
    column_reads_back hnew hoffer hwrites (of_decide_eq_true hsize)
      (fun _ others hothers run hrun body hbody => by
        rw [hothers.unique hcut] at hrun
        exact hbodies run hrun body (congrArg Except.toOption hbody)) {}
  obtain rfl := honly runs hcut
  exact ⟨w₀, _, w₂, file, hnew, hoffer, hwrites, of_decide_eq_true hsize, col, hcol, hpages, hread⟩

end Columnar
