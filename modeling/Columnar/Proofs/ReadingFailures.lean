import Columnar.Proofs.AcceptedColumns
import Columnar.Proofs.DecodingFailures

/-! # How reading fails

What is read from a file in memory is right, or the bytes are put in doubt: a column that opens
fails in no other way. -/

namespace Columnar

/-- What is answered is right, or the failure puts the bytes in doubt. -/
def Honest {α : Type} (x : Except Error α) (P : α → Prop) : Prop :=
  (∃ a, x = .ok a ∧ P a) ∨ ∃ e, x = .error e ∧ e.isCorruption = true

namespace Honest

variable {α β : Type} {x : Except Error α} {P Q : α → Prop}

theorem ok {a : α} (h : P a) : Honest (.ok a) P := .inl ⟨a, rfl, h⟩

theorem error {e : Error} (h : e.isCorruption = true) : Honest (.error e) P := .inr ⟨e, rfl, h⟩

theorem mono (h : Honest x P) (hPQ : ∀ a, x = .ok a → P a → Q a) : Honest x Q := by
  rcases h with ⟨a, hx, ha⟩ | h
  · exact .inl ⟨a, hx, hPQ a hx ha⟩
  · exact .inr h

theorem bind {f : α → Except Error β} {R : β → Prop} (h : Honest x P)
    (hf : ∀ a, x = .ok a → P a → Honest (f a) R) : Honest (x >>= f) R := by
  rcases h with ⟨a, rfl, ha⟩ | ⟨e, rfl, he⟩
  · exact hf a rfl ha
  · exact error he

theorem ite {c : Prop} [Decidable c] {y : Except Error α} (hx : c → Honest x P)
    (hy : ¬ c → Honest y P) : Honest (if c then x else y) P := by
  split
  next h => exact hx h
  next h => exact hy h

/-- A check, and the steps behind it. -/
theorem check {c : Prop} [Decidable c] {cause : Corruption} (h : ¬ c → Honest x P) :
    Honest (if c then throw (.corruption cause) >>= fun _ : PUnit => x else x) P :=
  .ite (fun _ => error rfl) h

theorem holds (h : Honest x P) {a : α} (ha : x = .ok a) : P a := by
  rcases h with ⟨a', rfl, hP⟩ | ⟨e, rfl, -⟩
  · cases ha
    exact hP
  · cases ha

theorem isCorruption (h : Honest x P) {e : Error} (he : x = .error e) : e.isCorruption = true := by
  rcases h with ⟨a, rfl, -⟩ | ⟨e', rfl, hdoubt⟩
  · cases he
  · cases he
    exact hdoubt

theorem mapM {f : α → Except Error β} {R : α → β → Prop} {xs : List α}
    (h : ∀ a ∈ xs, Honest (f a) (R a)) : Honest (xs.mapM f) (List.Forall₂ R xs) := by
  induction xs with
  | nil => exact ok .nil
  | cons a xs ih =>
      rw [List.mapM_cons]
      refine (h a (by simp)).bind fun b _ hb => ?_
      exact (ih fun a' ha' => h a' (by simp [ha'])).bind fun bs _ hbs => ok (.cons hb hbs)

theorem forM {f : α → Except Error Unit} {xs : List α}
    (h : ∀ x ∈ xs, Honest (f x) fun _ => P x) : Honest (xs.forM f) fun _ => ∀ x ∈ xs, P x := by
  induction xs with
  | nil => exact ok (by simp)
  | cons x xs ih =>
      change Honest (f x >>= fun _ => xs.forM f) _
      refine (h x (by simp)).bind fun _ _ hx => ?_
      refine (ih fun y hy => h y (by simp [hy])).mono fun _ _ hxs y hy => ?_
      rcases List.mem_cons.mp hy with rfl | hy
      · exact hx
      · exact hxs y hy

end Honest

theorem Decoder.doubts_ofExcept {α : Type} {x : Except Error α} {P : α → Prop}
    (h : Honest x P) : Doubts (ofExcept x) := by
  rcases h with ⟨a, rfl, -⟩ | ⟨e, rfl, he⟩
  · exact .pure a
  · intro bs e' rest hrun
    cases hrun
    exact he

open Decoder (Doubts)

/-! ## Pages -/

namespace Page

theorem doubts_takeBits (w count : ℕ) : Doubts (takeBits w count) :=
  .ite (.fail _) (.ite (.pure _) (.ite (.fail _) ((Decoder.doubts_take _ _).bind fun _ => .pure _)))

theorem honest_ofImage {f : Field} (h : f.type.isIntegerLike = true) (image : BitVec 64) :
    Honest (f.ofImage image) fun _ => True := by
  unfold Field.ofImage
  cases Value.ofImage? f.type image with
  | some v => exact .ok trivial
  | none => exact .ite (fun _ => .error rfl) fun hn => absurd h hn

theorem doubts_decodePacked {f : Field} (h : f.type.isIntegerLike = true) (count : ℕ) :
    Doubts (decodePacked f count) := by
  refine .ite (.pure _) ?_
  refine ((Decoder.doubts_word _ _).bind fun _ => .pure _).bind fun reference => ?_
  refine (Decoder.doubts_byte _).bind fun width => (doubts_takeBits _ _).bind fun distances => ?_
  exact Decoder.doubts_ofExcept (Honest.mapM fun d _ => honest_ofImage h _)

theorem doubts_decodeDictionary (f : Field) (count : ℕ) : Doubts (decodeDictionary f count) := by
  refine .ite (.pure _) (Varint.doubts_decode.bind fun size => ?_)
  refine Decoder.doubts_remaining.bind fun left => .check ?_
  refine (Decoder.doubts_times (Varint.doubts_decode.bind fun _ => Decoder.doubts_take _ _) _).bind
    fun entries => .require ?_
  refine (Decoder.doubts_byte _).bind fun width => (doubts_takeBits _ _).bind fun codes => ?_
  refine Decoder.doubts_ofExcept (Honest.mapM (R := fun _ _ => True) fun c _ => ?_)
  cases entries.toArray[c]? with
  | some e => exact .ok trivial
  | none => exact .error rfl

/-- Values in an encoding that the type has. -/
theorem doubts_decodeValues {f : Field} {e : Encoding} (h : e.supports f.type = true) (count : ℕ) :
    Doubts (decodeValues f e count) := by
  cases e with
  | plain => exact Decoder.doubts_times f.doubts_decode count
  | bitPacked => exact doubts_decodePacked h count
  | dictionary => exact doubts_decodeDictionary f count

theorem doubts_decodeNulls (rows : ℕ) : Doubts (decodeNulls rows) :=
  (Decoder.doubts_flag _).bind fun _ =>
    .ite ((Decoder.doubts_take _ _).bind fun _ => .pure _) (.pure _)

theorem doubts_decodeBody {f : Field} {e : Encoding} (h : e.supports f.type = true) (rows : ℕ) :
    Doubts (decodeBody f e rows) := by
  refine Varint.doubts_decode.bind fun count => .check ?_
  refine (doubts_decodeNulls rows).bind fun nulls => ?_
  refine (doubts_decodeValues h _).bind fun values => ?_
  exact Decoder.doubts_remaining.bind fun left => .check (.pure _)

theorem honest_decompress (c : Compression) (data : Bytes) :
    Honest (c.decompress data) fun _ => True := by
  cases c with
  | none => exact .ok trivial
  | lz4 =>
      simp only [Compression.decompress]
      cases hword : Decoder.word 4 "lz4 size prefix" data with
      | error e rest =>
          have he := Decoder.doubts_word _ _ _ _ _ hword
          cases e with
          | corruption cause => exact .error rfl
          | _ => exact .error he
      | ok claimed block =>
          refine .ite (fun _ => .error rfl) fun _ => ?_
          cases Lz4.expand claimed block with
          | ok bytes => exact .ok trivial
          | error cause => exact .error rfl

theorem honest_stripChecksum (raw : Bytes) (verify : Bool) :
    Honest (stripChecksum raw verify) fun compressed =>
      compressed = raw.take (raw.length - 4) := by
  refine .ite (fun _ => .error rfl) fun _ => .ite (fun _ => ?_) fun _ => .ok rfl
  exact .ite (fun _ => .ok rfl) fun _ => .error rfl

/-- Whatever bytes are taken for a page: it has as many cells as were asked for, or the bytes are
put in doubt. -/
theorem honest_decode (f : PageFormat) (raw : Bytes) (rows : ℕ) (verify : Bool) :
    Honest (decode f raw rows verify) fun cells => cells.length = rows := by
  have hany : Honest (decode f raw rows verify) fun _ => True := by
    refine .check fun _ => (honest_stripChecksum raw verify).bind fun compressed _ _ => ?_
    refine (honest_decompress f.compression compressed).bind fun bytes _ _ => ?_
    cases hbody : decodeBody f.field f.encoding rows bytes with
    | ok cells rest => exact .ok trivial
    | error e rest => exact .error (doubts_decodeBody f.supported rows _ _ _ hbody)
  exact hany.mono fun cells hcells _ => length_of_decode hcells

end Page

/-! ## Files -/

/-- A file in memory says where the bytes are too few. -/
theorem File.honest_readAt (bytes : Array UInt8) (offset length : ℕ) :
    Honest ((File.memory bytes).readAt offset length) fun found => found.length = length := by
  rw [File.readAt_memory]
  refine .ite (fun h => .ok ?_) fun _ => .error rfl
  rw [Array.length_toList, Array.size_extract]
  omega

/-! ## Columns -/

theorem ZoneMap.doubts_decodeStream (f : Field) : Doubts (ZoneMap.decodeStream f) := by
  refine (Decoder.doubts_word _ _).bind fun count => ?_
  refine Decoder.doubts_remaining.bind fun left => .check ?_
  refine (Decoder.doubts_times (ZoneMap.doubts_decodeRecord f) _).bind fun maps => ?_
  exact Decoder.doubts_remaining.bind fun left => .require (.pure _)

theorem OrdinalIndex.doubts_decode (numRows : ℕ) : Doubts (OrdinalIndex.decode numRows) := by
  have hentry : Doubts PageEntry.decode := by
    refine ((Decoder.doubts_word _ _).bind fun _ => .pure _).bind fun firstOrdinal => ?_
    refine ((Decoder.doubts_word _ _).bind fun _ => .pure _).bind fun offset => ?_
    exact ((Decoder.doubts_word _ _).bind fun _ => .pure _).bind fun size => .pure _
  refine (Decoder.doubts_word _ _).bind fun count => ?_
  refine Decoder.doubts_remaining.bind fun left => .check ?_
  refine (Decoder.doubts_times hentry _).bind fun entries => ?_
  cases OrdinalIndex.misplaced? numRows 0 0 entries with
  | some placed => exact (Doubts.fail _).bind fun _ => .check (.pure _)
  | none => exact .check (.pure _)

namespace Column

theorem honest_requireInside (id : UInt32) (part : Section) (size : ℕ) (p : Pointer) :
    Honest (requireInside id part size p) fun _ => p.within size = true :=
  .ite (fun h => .ok h) fun _ => .error rfl

theorem honest_readZoneMaps (entry : ColumnMeta) (numPages : ℕ) (bytes : Array UInt8)
    (p : Pointer) : Honest (readZoneMaps entry numPages (.memory bytes) p) fun _ => True := by
  refine (File.honest_readAt bytes _ _).bind fun data _ _ => ?_
  cases hmaps : ZoneMap.decodeStream entry.field data with
  | error e rest => exact .error (ZoneMap.doubts_decodeStream _ _ _ _ hmaps)
  | ok maps rest => exact .check fun _ => .ok trivial

theorem honest_parse (data : Bytes) (numRows : ℕ) :
    Honest (OrdinalIndex.parse data numRows) fun _ => True := by
  unfold OrdinalIndex.parse
  cases hindex : OrdinalIndex.decode numRows data with
  | ok index rest => exact .ok trivial
  | error e rest => exact .error (OrdinalIndex.doubts_decode numRows _ _ _ hindex)

/-- A column of a file in memory opens, or puts the bytes in doubt, if its type can be stored in the
encoding. -/
theorem honest_open {entry : ColumnMeta} (h : entry.encoding.supports entry.type = true)
    (options : ReadOptions) (numRows : ℕ) (bytes : Array UInt8) :
    Honest (Column.open options entry numRows (.memory bytes))
      (OpensFrom options entry numRows (.memory bytes)) := by
  have hany : Honest (Column.open options entry numRows (.memory bytes)) fun _ => True := by
    have hformat : ∃ format, PageFormat.new entry.field entry.encoding entry.compression =
        .ok format := ⟨_, dif_pos h⟩
    obtain ⟨format, hformat⟩ := hformat
    refine .check fun _ => ?_
    refine (Honest.forM fun p _ => honest_requireInside _ _ _ p).bind fun _ _ _ => ?_
    cases entry.ordinalIndex with
    | none => exact .error rfl
    | some p =>
        refine (honest_requireInside _ _ _ p).bind fun _ _ _ => ?_
        refine (Honest.forM fun q _ => honest_requireInside _ _ _ q).bind fun _ _ _ => ?_
        refine (File.honest_readAt bytes _ _).bind fun data _ _ => ?_
        refine (honest_parse data numRows).bind fun index _ _ => .check fun _ => ?_
        have hlast : ∀ zoneMaps, Honest (do
            let format ← PageFormat.new entry.field entry.encoding entry.compression
            return (⟨entry, format, index, zoneMaps, .memory bytes, options.verifyChecksums⟩ :
              Column)) fun _ => True := by
          intro zoneMaps
          rw [hformat]
          exact .ok trivial
        cases entry.zoneMaps with
        | none => exact hlast none
        | some q =>
            have hmaps : Honest (some <$> readZoneMaps entry index.numPages (.memory bytes) q)
                fun _ => True :=
              (honest_readZoneMaps entry index.numPages bytes q).bind fun maps _ _ => .ok trivial
            exact hmaps.bind fun maps _ _ => hlast maps
  exact hany.mono fun c hc _ => of_open_eq_ok hc

variable {c : Column} {bytes : Array UInt8}

/-- A page that the column has reads, with the rows that it should have, or puts the bytes in
doubt. -/
theorem honest_readPage (hfile : c.file = .memory bytes) {k first stop : ℕ}
    (hk : c.index.range? k = some (first, stop)) :
    Honest (c.readPage k) fun cells => cells.length = stop - first := by
  obtain ⟨hfirst, -⟩ := OrdinalIndex.range?_eq_some hk
  obtain ⟨e, he, -⟩ := Option.map_eq_some_iff.mp hfirst
  rw [Column.readPage, he, hk, hfile]
  exact (File.honest_readAt bytes _ _).bind fun raw _ _ => Page.honest_decode _ raw _ _

/-- So does the cell of a row that the column has. -/
theorem Indexed.honest_cellAt (h : c.Indexed) (hfile : c.file = .memory bytes) {ordinal : ℕ}
    (hord : ordinal < c.numRows) : Honest (c.cellAt ordinal) fun _ => True := by
  obtain ⟨first, stop, hrange, -⟩ := OrdinalIndex.findPage_spec h.ordered (h.rows ▸ hord)
  exact (honest_readPage hfile hrange).bind fun cells _ _ => .ok trivial

end Column

end Columnar
