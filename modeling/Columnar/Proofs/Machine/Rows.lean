import Columnar.Proofs.Machine.Scans

/-! # Rows as a machine scans them

The block of a batch has a column for each scan. While all scans stand at one row, or one of them at
a cell that cannot be read, a batch has no more rows than are left. -/

namespace Columnar.Machine

def seekAll (ordinal : ℕ) : Run (List Scan) Unit
  | [] => some (.ok (), [])
  | s :: ss => do
    let (outcome, s) ← seek ordinal s
    match outcome with
    | .error e => return (.error e, s :: ss)
    | .ok _ =>
      let (outcome, ss) ← seekAll ordinal ss
      return (outcome, s :: ss)

def seekRows (ordinal : ℕ) : Run RowScan Unit := fun r => do
  let (outcome, columns) ← seekAll ordinal r.columns
  match outcome with
  | .error e => return (.error e, { r with columns })
  | .ok _ => return (.ok (), { r with columns, ordinal })

def rowsRead : BatchStatus → ℕ
  | .read n => n
  | .endOfData => 0

/-- Each scan has a column of the block; if there is none, the run stops. -/
def nextAll (limit position : ℕ) (expected : Option ℕ) : List Scan → List (List Cell) →
    Option (Except Error (Option ℕ) × List Scan × List (List Cell))
  | [], block => some (.ok expected, [], block)
  | _ :: _, [] => none
  | s :: ss, column :: block => do
    let (outcome, (s, cells)) ← next limit (s, column.toArray)
    match outcome with
    | .error e => return (.error e, s :: ss, cells.toList :: block)
    | .ok status =>
      let count := rowsRead status
      if expected.any (· ≠ count) then
        return (.error (.corruption (.unevenColumns position count (expected.getD 0))),
          s :: ss, cells.toList :: block)
      else
        let (outcome, ss, block) ← nextAll limit (position + 1) (some count) ss block
        return (outcome, s :: ss, cells.toList :: block)

def nextRows (limit : ℕ) : Run (RowScan × RowBlock) BatchStatus := fun (r, _) => do
  let fresh := RowBlock.empty r.columns.length
  if limit = 0 then return (.error (.argument .emptyBatch), (r, fresh))
  if r.numRows ≤ r.ordinal then return (.ok .endOfData, (r, fresh))
  let (outcome, columns, cells) ← nextAll limit 0 none r.columns fresh.columns
  match outcome with
  | .error e => return (.error e, ({ r with columns }, ⟨cells⟩))
  | .ok produced =>
    let count := produced.getD 0
    if count = 0 then return (.ok .endOfData, ({ r with columns }, ⟨cells⟩))
    let ordinal ← add 64 r.ordinal count
    return (.ok (.read count), ({ r with columns, ordinal }, ⟨cells⟩))

/-! ## Scans of one file -/

/-- The scan stands at a row of a column of the file, or at its end. -/
def InFile (bytes : Array UInt8) (s : Scan) : Prop :=
  s.column.file = .memory bytes ∧ Scan.At s.column s s.ordinal

section

variable {bytes : Array UInt8} {scans : List Scan}

/-- The status of a batch tells how many cells the output has. -/
theorem rowsRead_eq {limit : ℕ} {x : Scan × Array Cell} {status : BatchStatus} {s : Scan}
    {cells : Array Cell} (h : Scan.next limit x = .ok status (s, cells)) :
    rowsRead status = cells.size := by
  rw [Scan.next] at h
  split at h
  next => cases h
  next =>
    split at h
    next => cases h
    next s' output _ =>
      cases h
      by_cases hempty : cells.isEmpty = true
      · rw [if_pos hempty, rowsRead, Array.isEmpty_iff_size_eq_zero.mp hempty]
      · rw [if_neg hempty, rowsRead]

variable (hsize : bytes.size < 2 ^ 64)
include hsize

theorem seekAll_eq (h : ∀ s ∈ scans, InFile bytes s) (target : ℕ) :
    seekAll target scans = some (settle (RowScan.seekAll target scans)) := by
  induction scans with
  | nil => rfl
  | cons s ss ih =>
      obtain ⟨hfile, hat⟩ := h s (by simp)
      have hrest := ih fun s' hs' => h s' (List.mem_cons_of_mem s hs')
      simp only [seekAll, RowScan.seekAll, seek_eq hsize hfile hat target, whole, hrest]
      cases Scan.seek target s with
      | error e s' => rfl
      | ok _ s' => cases RowScan.seekAll target ss <;> rfl

theorem nextAll_eq (h : ∀ s ∈ scans, InFile bytes s) (limit position : ℕ) (expected : Option ℕ) :
    nextAll limit position expected scans (scans.map fun _ => []) =
      some (settle (RowScan.nextAll limit position expected scans)) := by
  induction scans generalizing position expected with
  | nil => simp [nextAll, RowScan.nextAll, settle]
  | cons s ss ih =>
      obtain ⟨hfile, hat⟩ := h s (by simp)
      have hrest := ih fun s' hs' => h s' (List.mem_cons_of_mem s hs')
      simp only [List.map_cons, nextAll, RowScan.nextAll, next_eq hsize hfile hat, whole, hrest]
      cases hnext : Scan.next limit (s, #[]) with
      | error e state => rfl
      | ok status state =>
          obtain ⟨s', cells⟩ := state
          simp only [settle, Option.bind_eq_bind, Option.bind_some, rowsRead_eq hnext]
          by_cases huneven : expected.any (· ≠ cells.size) = true
          · rw [if_pos huneven, if_pos huneven]
            rfl
          · rw [if_neg huneven, if_neg huneven]
            cases RowScan.nextAll limit (position + 1) (some cells.size) ss <;> rfl

theorem seekRows_eq {r : RowScan} (h : ∀ s ∈ r.columns, InFile bytes s) (target : ℕ) :
    seekRows target r = whole (RowScan.seek target) r := by
  rw [seekRows, seekAll_eq hsize h, whole, RowScan.seek]
  cases RowScan.seekAll target r.columns <;> rfl

theorem nextRows_eq {r : RowScan} (h : ∀ s ∈ r.columns, InFile bytes s) {limit : ℕ}
    (earlier : RowBlock)
    (hroom : ∀ n state, RowScan.next limit (r, earlier) = .ok (.read n) state →
      r.ordinal + n < 2 ^ 64) :
    nextRows limit (r, earlier) = whole (RowScan.next limit) (r, earlier) := by
  have hfresh : (RowBlock.empty r.columns.length).columns = r.columns.map fun _ => [] :=
    (List.map_const' ..).symm
  rw [whole]
  simp only [nextRows, RowScan.next, hfresh, nextAll_eq hsize h] at hroom ⊢
  by_cases hlimit : limit = 0
  · rw [if_pos hlimit, if_pos hlimit]
    rfl
  · by_cases hend : r.numRows ≤ r.ordinal
    · simp only [if_neg hlimit, if_pos hend]
      rfl
    · simp only [if_neg hlimit, if_neg hend] at hroom ⊢
      cases hall : RowScan.nextAll limit 0 none r.columns with
      | error e state => rfl
      | ok produced state =>
          obtain ⟨columns, cells⟩ := state
          rw [hall] at hroom
          simp only [settle, Option.bind_eq_bind, Option.bind_some]
          by_cases hzero : produced.getD 0 = 0
          · simp only [hzero, if_true]
            rfl
          · simp only [if_neg hzero] at hroom ⊢
            rw [add_eq (hroom _ _ rfl)]
            rfl

end

end Columnar.Machine
